import CodeAtlas.Proofs.Metta.Progress

/-! Where a closed form ends. The reader of a form takes two tokens by itself: the one that opens
the form and the one that closes it, and it leaves the rest to other readers. A form ends on the
line of its closing parenthesis, except that an empty form ends where it starts. -/

namespace CodeAtlas.Metta

open CodeAtlas.Metta.Parser

/-- Run from index `i` on, the script takes the token at index `j` by itself, and not through a
reader that it calls. -/
inductive Takes (tokens : List Token) : Script → Nat → Nat → Prop
  | peek {next : Option Token → Script} {i j : Nat} :
      Takes tokens (next tokens[i]?) i j → Takes tokens (.peek next) i j
  | here {next : Option Token → Script} {i : Nat} : i < tokens.length →
      Takes tokens (.advance next) i i
  | later {next : Option Token → Script} {i j : Nat} :
      Takes tokens (next tokens[i]?) (indexAfter tokens i) j → Takes tokens (.advance next) i j
  | resume {routine : Routine} {next : Option Node → Script} {i j k : Nat} {node? : Option Node} :
      Ends tokens routine.script i (.ok node?) j → Takes tokens (next node?) j k →
      Takes tokens (.call routine next) i k

section
variable {tokens ahead left rest : List Token} {i j k : Nat} {l t r : Token} {node? : Option Node}
  {next : Option Token → Script} {line : Int}

theorem not_takes_finish : ¬ Takes tokens (.finish node?) i j := nofun

theorem takes_peek : Takes tokens (.peek next) i j ↔ Takes tokens (next tokens[i]?) i j := by
  constructor
  · intro h
    cases h with
    | peek h => exact h
  · exact .peek

theorem takes_advance (hi : tokens[i]? = some t) (hij : i < j) :
    Takes tokens (.advance next) i j ↔ Takes tokens (next (some t)) (i + 1) j := by
  obtain ⟨hlt, -⟩ := List.getElem?_eq_some_iff.1 hi
  have hindex : indexAfter tokens i = i + 1 := if_pos hlt
  rw [← hi, ← hindex]
  constructor
  · intro h
    cases h with
    | here => exact absurd hij (Nat.lt_irrefl i)
    | later h => exact h
  · exact .later

theorem Takes.index_of_close {closed : Node → Option Token → Node}
    (h : Takes tokens (.close closed node?) i j) : j = i := by
  rw [Script.close, takes_peek] at h
  split at h
  · cases h with
    | here => rfl
    | later h =>
      cases node? with
      | none => exact absurd h not_takes_finish
      | some node => cases hr : tokens[i]? <;> rw [hr] at h <;> cases h
  · exact absurd h not_takes_finish

theorem Ends.drop_eq {script : Script} {outcome outcome' : Outcome}
    (h : Ends tokens script i outcome k) (hi : i ≤ tokens.length)
    (hyields : Yields tokens script (tokens.drop i) outcome' left) : tokens.drop k = left := by
  obtain ⟨j, -, hends, hleft⟩ := hyields i hi rfl
  obtain ⟨-, rfl⟩ := hends.unique h
  exact hleft

theorem drop_of_takes {routine : Routine} {closed : Node → Option Token → Node} {node : Node}
    (hbody : Yields tokens routine.script (tokens.drop i) (.ok (some node)) left)
    (hi : i ≤ tokens.length) (h : Takes tokens (.call routine (.close closed)) i j) :
    tokens.drop j = left := by
  cases h with
  | resume hends hclose =>
    obtain rfl := hclose.index_of_close
    exact hends.drop_eq hi hbody

theorem definition_of_takes (he : t.kind = .equals) (hi : i ≤ tokens.length)
    (hahead : tokens.drop i = t :: rest)
    (h : Takes tokens (.call (.definition line) (.close Node.closedAt)) i j) :
    ∃ node : Node, (form line (t :: rest)).value = node.closedAt tokens[j]? ∧
      (form line (t :: rest)).rest = tokens.drop (j + 1) := by
  have hleft := drop_of_takes yields_definition hi h
  rw [hahead, List.tail_cons] at hleft
  rw [(form_equals he).1, (form_equals he).2, ← hleft, List.head?_drop, List.tail_drop]
  exact ⟨_, rfl, rfl⟩

theorem call_of_takes (hc : t.kind ≠ .closeParen) (he : t.kind ≠ .equals) (hi : i ≤ tokens.length)
    (hahead : tokens.drop i = t :: rest)
    (h : Takes tokens (.call (.call line) (.close Node.closedAt)) i j) :
    ∃ node : Node, (form line (t :: rest)).value = node.closedAt tokens[j]? ∧
      (form line (t :: rest)).rest = tokens.drop (j + 1) := by
  have hleft := drop_of_takes (yields_call ((yields_all tokens).1 _)) hi h
  rw [hahead, call_eq.2] at hleft
  rw [(form_call hc he).1, (form_call hc he).2, ← hleft, List.head?_drop, List.tail_drop]
  exact ⟨_, rfl, rfl⟩

theorem form_of_takes (hi : tokens[i]? = some l) (hij : i < j)
    (h : Takes tokens Routine.form.script i j) :
    (form l.line (tokens.drop (i + 1))).rest = tokens.drop (j + 1) ∧
      (AtEnd (tokens.drop (i + 1)) ∧ j = i + 1 ∨ ¬ AtEnd (tokens.drop (i + 1)) ∧
        ∃ node : Node, (form l.line (tokens.drop (i + 1))).value = node.closedAt tokens[j]?) := by
  obtain ⟨hlt, -⟩ := List.getElem?_eq_some_iff.1 hi
  rw [Routine.script, takes_advance hi hij] at h
  change Takes tokens (.peek _) (i + 1) j at h
  rw [takes_peek, ← List.head?_drop] at h
  cases hahead : tokens.drop (i + 1) with
  | nil =>
    rw [hahead] at h
    exact absurd h not_takes_finish
  | cons t rest =>
    rw [hahead, List.head?_cons, if_neg (by simp)] at h
    rw [atEnd_cons]
    by_cases hc : t.kind = .closeParen
    · rw [if_pos (isNext_some.2 hc)] at h
      have hindex : j = i + 1 := by
        cases h with
        | here => rfl
        | later h => exact absurd h not_takes_finish
      rw [(form_close hc).2, hindex, ← List.tail_drop, hahead]
      exact ⟨rfl, .inl ⟨hc, rfl⟩⟩
    · rw [if_neg (mt isNext_some.1 hc)] at h
      have hclosed : ∃ node : Node, (form l.line (t :: rest)).value = node.closedAt tokens[j]? ∧
          (form l.line (t :: rest)).rest = tokens.drop (j + 1) := by
        split at h
        · next he => exact definition_of_takes (isNext_some.1 he) (by omega) hahead h
        · next he => exact call_of_takes hc (mt isNext_some.2 he) (by omega) hahead h
      obtain ⟨node, hvalue, hrest⟩ := hclosed
      exact ⟨hrest, .inr ⟨hc, node, hvalue⟩⟩

theorem signature_of_takes (hi : tokens[i]? = some l) (hj : tokens[j]? = some r)
    (hr : r.kind = .closeParen) (hij : i < j) (h : Takes tokens Routine.signature.script i j) :
    ∃ node : Node,
      (signature (tokens.drop (i + 1))).value = some (node.signatureClosedAt (some r)) ∧
      (signature (tokens.drop (i + 1))).rest = tokens.drop (j + 1) := by
  obtain ⟨hlt, -⟩ := List.getElem?_eq_some_iff.1 hj
  rw [Routine.script, takes_advance hi hij, takes_peek] at h
  cases hname : tokens[i + 1]? with
  | none =>
    rw [hname] at h
    exact absurd h not_takes_finish
  | some name =>
    rw [hname] at h
    by_cases hc : name.kind = .closeParen
    · rw [if_pos (by simp [isNext, hc])] at h
      exact absurd h not_takes_finish
    · have hne : j ≠ i + 1 := by
        rintro rfl
        rw [hname] at hj
        exact hc (Option.some.inj hj ▸ hr)
      rw [if_neg (by simp [isNext, hc]), takes_advance hname (by omega)] at h
      have hleft := drop_of_takes ((yields_all tokens).1 _ _) (by omega) h
      rw [drop_of_getElem? hname, (signature_name hc).1, (signature_name hc).2, ← hleft,
        List.head?_drop, List.tail_drop, hj]
      exact ⟨_, rfl, rfl⟩

end

/-- A signature ends on the line of its closing parenthesis, and so does a form, unless it is an
empty form that is closed on another line than opened. -/
theorem closed_line_iff (tokens : List Token) (i j : Nat) (r : Token) (hij : i < j)
    (hj : tokens[j]? = some r) (hr : r.kind = .closeParen) :
    (Takes tokens Routine.form.script i j →
      ∃ node, (Cursor.at tokens i).step .form = (.ok (.node node), Cursor.at tokens (j + 1)) ∧
        (node.lastLine = r.line ↔ (j = i + 1 → ∀ l ∈ tokens[i]?, l.line = r.line))) ∧
    (Takes tokens Routine.signature.script i j →
      ∃ node, (Cursor.at tokens i).step .signature = (.ok (.node node), Cursor.at tokens (j + 1)) ∧
        node.lastLine = r.line) := by
  obtain ⟨hlt, -⟩ := List.getElem?_eq_some_iff.1 hj
  obtain ⟨l, hi⟩ : ∃ l, tokens[i]? = some l := ⟨_, List.getElem?_eq_getElem (by omega)⟩
  have hdrop := drop_of_getElem? hi
  constructor
  · intro h
    obtain ⟨hrest, hclosed⟩ := form_of_takes hi hij h
    refine ⟨(form l.line (tokens.drop (i + 1))).value, ?_, ?_⟩
    · simp [Cursor.at, Cursor.step, Cursor.withFirst, hdrop, hrest]
    rcases hclosed with ⟨-, rfl⟩ | ⟨hbody, node, hvalue⟩
    · rw [drop_of_getElem? hj, (form_close hr).1, hi]
      constructor
      · rintro hlast - _ ⟨⟩
        exact Int.ofNat.inj hlast
      · intro hsame
        exact congrArg Int.ofNat (hsame rfl l rfl)
    · have hne : j ≠ i + 1 := by
        rintro rfl
        rw [drop_of_getElem? hj, atEnd_cons] at hbody
        exact hbody hr
      simp [hvalue, hj, hne]
  · intro h
    obtain ⟨node, hvalue, hrest⟩ := signature_of_takes hi hj hr hij h
    refine ⟨node.signatureClosedAt (some r), ?_, rfl⟩
    simp [Cursor.at, Cursor.step, Cursor.withFirst, hdrop, hvalue, hrest, StepResult.ofNode?]

def brokenPair : List Token := tokenize "(\n)"

theorem brokenPair_ends_above :
    brokenPair[1]? = some ⟨.closeParen, ")", 2, 0⟩ ∧ Takes brokenPair Routine.form.script 0 1 ∧
      ∃ node, (Cursor.at brokenPair 0).step .form = (.ok (.node node), Cursor.at brokenPair 2) ∧
        node.lastLine ≠ 2 := by
  have htokens : brokenPair = [⟨.openParen, "(", 1, 0⟩, ⟨.closeParen, ")", 2, 0⟩] := by
    decide +kernel
  have hclose : brokenPair[1]? = some ⟨.closeParen, ")", 2, 0⟩ := by rw [htokens]; rfl
  have htakes : Takes brokenPair Routine.form.script 0 1 := by
    rw [htokens]
    exact .later (.peek (.here (by decide)))
  obtain ⟨hform, -⟩ := closed_line_iff brokenPair 0 1 _ (by decide) hclose rfl
  obtain ⟨node, hstep, hline⟩ := hform htakes
  refine ⟨hclose, htakes, node, hstep, fun hlast => ?_⟩
  have hsame := hline.1 hlast rfl ⟨.openParen, "(", 1, 0⟩ (by rw [htokens]; rfl)
  cases hsame

end CodeAtlas.Metta
