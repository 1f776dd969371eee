import CodeAtlas.Grammar.Library

/-! What loading leaves behind. It stops at the first language that fails, so a library is found in
one of two states only: nothing is loaded, or all that stands before the first failure. In the
second state the languages of that part are there for the asking, although loading fails as it did
before. -/

namespace CodeAtlas.Grammar.Library

def loads (lib : Library) (language : Language) : Bool :=
  (lib.failures.lookup language.name).isNone

def loadable (lib : Library) : List Language := Language.withGrammar.takeWhile lib.loads

def failureIn? (lib : Library) : List Language → Option LibraryError
  | [] => none
  | language :: rest =>
    match lib.failures.lookup language.name with
    | some reason => some (.loadFailed language reason)
    | none => lib.failureIn? rest

def failure? (lib : Library) : Option LibraryError := lib.failureIn? Language.withGrammar

def outcome : Option LibraryError → Except LibraryError Unit
  | some failure => .error failure
  | none => .ok ()

theorem loadEach_fresh (lib : Library) (languages loaded : List Language)
    (hnodup : languages.Nodup) (hnew : ∀ language ∈ languages, language ∉ loaded) :
    lib.loadEach languages loaded =
      (outcome (lib.failureIn? languages), loaded ++ languages.takeWhile lib.loads) := by
  -- What is loaded grows on the way, so that the rest has to be new with respect to more.
  induction languages generalizing loaded with
  | nil => simp [loadEach, failureIn?, outcome]
  | cons language rest ih =>
    have hfirst : language ∉ loaded := hnew language (by simp)
    rw [List.nodup_cons] at hnodup
    rw [loadEach, if_neg (by simpa using hfirst)]
    cases hlookup : lib.failures.lookup language.name with
    | some reason => simp [failureIn?, loads, hlookup, outcome]
    | none =>
      have hrest : ∀ l ∈ rest, l ∉ loaded ++ [language] := by
        intro l hl hmem
        rcases List.mem_append.1 hmem with hold | hlast
        · exact hnew l (by simp [hl]) hold
        · exact hnodup.1 (List.mem_singleton.1 hlast ▸ hl)
      dsimp only
      rw [ih (loaded ++ [language]) hnodup.2 hrest]
      simp [failureIn?, loads, hlookup]

theorem loadEach_again (lib : Library) (languages loaded : List Language)
    (hloads : ∀ language ∈ loaded, lib.loads language)
    (hpart : ∀ language ∈ languages.takeWhile lib.loads, language ∈ loaded) :
    lib.loadEach languages loaded = (outcome (lib.failureIn? languages), loaded) := by
  induction languages with
  | nil => rfl
  | cons language rest ih =>
    cases hlookup : lib.failures.lookup language.name with
    | some reason =>
      have hfails : language ∉ loaded := by
        intro hmem
        have := hloads language hmem
        simp [loads, hlookup] at this
      rw [loadEach, if_neg (by simpa using hfails)]
      simp [failureIn?, hlookup, outcome]
    | none =>
      have hmem : language ∈ loaded := hpart language (by simp [loads, hlookup])
      rw [loadEach, if_pos (by simpa using hmem), ih fun l hl => hpart l ?_]
      · simp [failureIn?, hlookup]
      · simp [loads, hlookup, hl]

theorem loads_of_loadable {lib : Library} {language : Language} (h : language ∈ lib.loadable) :
    lib.loads language :=
  List.all_eq_true.1 List.all_takeWhile language h

theorem need_unbuilt {lib : Library} (h : lib.isBuilt = false) (language : Language) :
    lib.need language [] = (.error (.notBuilt lib.path), []) := by
  simp [need, load, h]

theorem need_fresh {lib : Library} (h : lib.isBuilt) (language : Language) :
    lib.need language [] = (outcome lib.failure?, lib.loadable) := by
  have hnodup : Language.withGrammar.Nodup := by decide
  have hload := lib.loadEach_fresh Language.withGrammar [] hnodup (by simp)
  rw [need, if_neg (by simp), load, if_pos h, hload]
  rfl

theorem need_loaded {lib : Library} {language : Language} (h : language ∈ lib.loadable) :
    lib.need language lib.loadable = (.ok (), lib.loadable) := by
  rw [need, if_pos (by simpa using h)]

theorem need_again {lib : Library} {language : Language} (hbuilt : lib.isBuilt)
    (h : language ∉ lib.loadable) :
    lib.need language lib.loadable = (outcome lib.failure?, lib.loadable) := by
  have hload := lib.loadEach_again Language.withGrammar lib.loadable
    (fun _ => loads_of_loadable) (fun _ => id)
  rw [need, if_neg (by simpa using h), load, if_pos hbuilt, hload]
  rfl

def loadedAfter (lib : Library) (asked : Bool) : List Language :=
  if lib.isBuilt && asked then lib.loadable else []

theorem need_loadedAfter (lib : Library) (language : Language) (asked : Bool) :
    (lib.need language (lib.loadedAfter asked)).2 = lib.loadedAfter true := by
  cases hbuilt : lib.isBuilt with
  | false => simp [loadedAfter, hbuilt, need_unbuilt]
  | true =>
    cases asked with
    | false => simp [loadedAfter, hbuilt, need_fresh]
    | true =>
      by_cases h : language ∈ lib.loadable
      · simp [loadedAfter, hbuilt, need_loaded h]
      · simp [loadedAfter, hbuilt, need_again hbuilt h]

def LoadsAll (lib : Library) : Prop :=
  lib.isBuilt ∧ ∀ language ∈ Language.withGrammar, lib.loads language

theorem loadEach_of_loads {lib : Library} {languages : List Language}
    (h : ∀ language ∈ languages, lib.loads language) (loaded : List Language) :
    (lib.loadEach languages loaded).1 = .ok () := by
  induction languages generalizing loaded with
  | nil => rfl
  | cons language rest ih =>
    obtain ⟨hfirst, hrest⟩ := List.forall_mem_cons.1 h
    have hnone : lib.failures.lookup language.name = none := Option.isNone_iff_eq_none.1 hfirst
    rw [loadEach, hnone]
    split
    · exact ih hrest _
    · exact ih hrest _

theorem LoadsAll.need {lib : Library} (h : lib.LoadsAll) (language : Language)
    (loaded : List Language) : (lib.need language loaded).1 = .ok () := by
  unfold Library.need
  split
  · rfl
  · rw [load, if_pos h.1]
    exact loadEach_of_loads h.2 loaded

end CodeAtlas.Grammar.Library
