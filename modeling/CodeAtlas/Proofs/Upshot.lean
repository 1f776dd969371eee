/-! What comes of a run that may fail and changes a state as it goes. A failure ends the run, and
the state stays as it was left. -/

namespace CodeAtlas

variable {ε σ α β : Type}

/-- What comes of a run from a state, and the state that it ends in. -/
def upshot (run : ExceptT ε (StateM σ) α) (s : σ) : Except ε α × σ := run.run.run s

theorem upshot_bind (run : ExceptT ε (StateM σ) α) (next : α → ExceptT ε (StateM σ) β) (s : σ) :
    upshot (run >>= next) s =
      StateT.run (ExceptT.bindCont next (upshot run s).1) (upshot run s).2 := rfl

theorem upshot_bind_ok {run : ExceptT ε (StateM σ) α} {s later : σ} {a : α}
    (h : upshot run s = (.ok a, later)) (next : α → ExceptT ε (StateM σ) β) :
    upshot (run >>= next) s = upshot (next a) later := by
  rw [upshot_bind, h]
  rfl

theorem upshot_bind_error {run : ExceptT ε (StateM σ) α} {s later : σ} {failure : ε}
    (h : upshot run s = (.error failure, later)) (next : α → ExceptT ε (StateM σ) β) :
    upshot (run >>= next) s = (.error failure, later) := by
  rw [upshot_bind, h]
  rfl

theorem upshot_bind_congr {run : ExceptT ε (StateM σ) α} {next next' : α → ExceptT ε (StateM σ) β}
    {s : σ} (h : ∀ a later, upshot run s = (.ok a, later) →
      upshot (next a) later = upshot (next' a) later) :
    upshot (run >>= next) s = upshot (run >>= next') s := by
  rcases hrun : upshot run s with ⟨result, later⟩
  cases result with
  | error failure => rw [upshot_bind_error hrun, upshot_bind_error hrun]
  | ok a => rw [upshot_bind_ok hrun, upshot_bind_ok hrun, h a later hrun]

/-- Whatever comes of the run, the state that it leaves is related to the one it began with. -/
def Relates (R : σ → σ → Prop) (run : ExceptT ε (StateM σ) α) : Prop := ∀ s, R s (upshot run s).2

theorem Relates.bind {R : σ → σ → Prop} (htrans : ∀ s t u, R s t → R t u → R s u)
    {run : ExceptT ε (StateM σ) α} {next : α → ExceptT ε (StateM σ) β} (h : Relates R run)
    (hnext : ∀ a, Relates R (next a)) : Relates R (run >>= next) := by
  intro s
  rcases hrun : upshot run s with ⟨result, later⟩
  have hlater := h s
  rw [hrun] at hlater
  cases result with
  | error failure => rwa [upshot_bind_error hrun]
  | ok a =>
    rw [upshot_bind_ok hrun]
    exact htrans _ _ _ hlater (hnext a later)

theorem view_foldl {step : σ → α → σ} (view : σ → List β) {part : α → List β}
    (h : ∀ s a, view (step s a) = view s ++ part a) (as : List α) (s : σ) :
    view (as.foldl step s) = view s ++ as.flatMap part := by
  induction as generalizing s with
  | nil => exact (List.append_nil _).symm
  | cons a as ih => rw [List.foldl_cons, ih, h, List.flatMap_cons, List.append_assoc]

end CodeAtlas
