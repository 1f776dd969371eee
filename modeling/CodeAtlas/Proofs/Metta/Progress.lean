import CodeAtlas.Proofs.Metta.Joining
import CodeAtlas.Proofs.Metta.Layout
import CodeAtlas.Proofs.Metta.Scripts

/-! Reading comes to an end on every input. The scripts of the readers end as the readers say, so
none runs for ever; no script fails that the script of a program leads to; and every pass of a loop
takes at least one token. -/

namespace CodeAtlas.Metta

open CodeAtlas.Metta.Parser

section
variable {tokens ahead rest : List Token} {t l o name : Token} {node parent : Node}
  {line : Int}

theorem stops_iff : (ahead.head?.isNone || isNext .closeParen ahead.head?) = true ↔
    AtEnd ahead := by
  cases ahead with
  | nil => simp [atEnd_nil]
  | cons t rest => simp [atEnd_cons, isNext]

theorem addChildren_addAny (node : Node) (child? : Option Node) (children : List Node) :
    (node.addAny child?).addChildren children = node.addChildren (child?.toList ++ children) := by
  cases child? <;> rfl

theorem yields_close {closed : Node → Option Token → Node} (hclosed : closed node none = node)
    (h : AtEnd ahead) : Yields tokens (.close closed (some node)) ahead
      (.ok (some (closed node ahead.head?))) ahead.tail := by
  refine .peek ?_
  cases ahead with
  | nil =>
    rw [List.head?_nil, hclosed]
    exact .finish
  | cons r rest =>
    rw [List.head?_cons, if_pos (isNext_some.2 (atEnd_cons.1 h))]
    exact .advance .finish

theorem yields_atom : Yields tokens Routine.atom.script (t :: rest) (.ok (some (atom t))) rest :=
  .advance .finish

theorem yields_item_atom (h : t.kind ≠ .openParen) :
    Yields tokens Routine.item.script (t :: rest) (.ok (some (atom t))) rest := by
  refine .peek ?_
  rw [List.head?_cons, if_neg (by simp), if_neg (mt isNext_some.1 h)]
  exact .call yields_atom .finish

theorem yields_item_form (h : t.kind = .openParen) {outcome : Option Node} {left : List Token}
    (hform : Yields tokens Routine.form.script (t :: rest) (.ok outcome) left) :
    Yields tokens Routine.item.script (t :: rest) (.ok outcome) left := by
  refine .peek ?_
  rw [List.head?_cons, if_neg (by simp), if_pos (isNext_some.2 h)]
  exact .call hform .finish

theorem yields_items_stop (h : AtEnd ahead) :
    Yields tokens (Routine.items parent).script ahead (.ok (some parent)) ahead := by
  refine .peek ?_
  rw [if_pos (stops_iff.2 h)]
  exact .finish

theorem yields_items_pass (h : ¬ AtEnd ahead) {child node : Node} {middle left : List Token}
    (hitem : Yields tokens Routine.item.script ahead (.ok (some child)) middle)
    (hitems : Yields tokens (Routine.items (parent.addChild child)).script middle
      (.ok (some node)) left) :
    Yields tokens (Routine.items parent).script ahead (.ok (some node)) left := by
  refine .peek ?_
  rw [if_neg (mt stops_iff.1 h)]
  exact .call hitem (.call hitems .finish)

def YieldsItems (tokens ahead : List Token) : Prop :=
  ∀ parent, Yields tokens (Routine.items parent).script ahead
    (.ok (some (parent.addChildren (items ahead).value))) (items ahead).rest

def YieldsForm (tokens ahead : List Token) : Prop :=
  ∀ l, Yields tokens Routine.form.script (l :: ahead)
    (.ok (some (form l.line ahead).value)) (form l.line ahead).rest

theorem yields_call (h : YieldsItems tokens ahead) :
    Yields tokens (Routine.call line).script ahead (.ok (some (call line ahead).value))
      (call line ahead).rest := by
  rw [call_eq.1, call_eq.2]
  exact .call (h _) .finish

theorem yields_signature_name (h : name.kind ≠ .closeParen) (hitems : YieldsItems tokens rest) :
    Yields tokens Routine.signature.script (o :: name :: rest)
      (.ok (signature (name :: rest)).value) (signature (name :: rest)).rest := by
  have hname : ¬ AtEnd (name :: rest) := mt atEnd_cons.1 h
  rw [(signature_name h).1, (signature_name h).2]
  refine .advance (.peek ?_)
  rw [List.tail_cons, if_neg (mt stops_iff.1 hname)]
  exact .advance (.call (hitems _) (yields_close rfl (atEnd_items rest)))

theorem yields_signature_nameless (h : AtEnd ahead.tail) :
    Yields tokens Routine.signature.script ahead (.ok (signature ahead.tail).value)
      (signature ahead.tail).rest := by
  rw [(signature_atEnd h).1, (signature_atEnd h).2]
  refine .advance (.peek ?_)
  rw [if_pos (stops_iff.2 h)]
  exact .finish

theorem yields_definition_plain (h : ∀ u ∈ ahead.tail.head?, u.kind ≠ .openParen)
    (hitems : YieldsItems tokens ahead.tail) :
    Yields tokens (Routine.definition line).script ahead
      (.ok (some (definition line ahead.tail).value)) (definition line ahead.tail).rest := by
  rw [(definition_plain h).1, (definition_plain h).2]
  refine .advance (.peek ?_)
  rw [if_neg (not_isNext h)]
  exact .call (hitems _) .finish

theorem yields_definition_open (h : o.kind = .openParen)
    (hsignature : Yields tokens Routine.signature.script (o :: rest) (.ok (signature rest).value)
      (signature rest).rest)
    (hitems : YieldsItems tokens (signature rest).rest) :
    Yields tokens (Routine.definition line).script (t :: o :: rest)
      (.ok (some (definition line (o :: rest)).value)) (definition line (o :: rest)).rest := by
  rw [(definition_open h).1, (definition_open h).2, ← addChildren_addAny]
  refine .advance (.peek ?_)
  rw [List.tail_cons, List.head?_cons, if_pos (isNext_some.2 h)]
  exact .call hsignature (.call (hitems _) .finish)

theorem yields_form_empty (h : AtEnd rest) :
    Yields tokens Routine.form.script (l :: rest) (.ok (some (form l.line rest).value))
      (form l.line rest).rest := by
  refine .advance (.peek ?_)
  cases rest with
  | nil =>
    rw [form_nil.1, form_nil.2]
    exact .finish
  | cons r rest =>
    have hr := atEnd_cons.1 h
    rw [(form_close hr).1, (form_close hr).2, List.tail_cons, List.head?_cons, if_neg (by simp),
      if_pos (isNext_some.2 hr)]
    exact .advance .finish

theorem yields_form_equals (h : t.kind = .equals)
    (hdefinition : Yields tokens (Routine.definition l.line).script (t :: rest)
      (.ok (some (definition l.line rest).value)) (definition l.line rest).rest) :
    Yields tokens Routine.form.script (l :: t :: rest)
      (.ok (some (form l.line (t :: rest)).value)) (form l.line (t :: rest)).rest := by
  refine .advance (.peek ?_)
  rw [(form_equals h).1, (form_equals h).2, List.tail_cons, List.head?_cons, if_neg (by simp),
    if_neg (by simp [isNext, h]), if_pos (isNext_some.2 h)]
  exact .call hdefinition (yields_close rfl (atEnd_definition l.line rest))

theorem yields_form_call (hc : t.kind ≠ .closeParen) (he : t.kind ≠ .equals)
    (hitems : YieldsItems tokens (t :: rest)) :
    Yields tokens Routine.form.script (l :: t :: rest)
      (.ok (some (form l.line (t :: rest)).value)) (form l.line (t :: rest)).rest := by
  refine .advance (.peek ?_)
  rw [(form_call hc he).1, (form_call hc he).2, List.tail_cons, List.head?_cons, if_neg (by simp),
    if_neg (mt isNext_some.1 hc), if_neg (mt isNext_some.1 he)]
  exact .call (.call (hitems _) .finish) (yields_close rfl (atEnd_items (t :: rest)))

theorem yields_all (tokens : List Token) :
    (∀ ahead, YieldsItems tokens ahead) ∧ ∀ ahead, YieldsForm tokens ahead := by
  apply Parser.induction
  case stop =>
    intro ahead h parent
    rw [(items_atEnd h).1, (items_atEnd h).2]
    exact yields_items_stop h
  case atom =>
    intro t rest ht hrest parent
    rw [(items_atom ht).1, (items_atom ht).2]
    exact yields_items_pass (mt (.inr ∘ atEnd_cons.1) ht) (yields_item_atom (mt .inl ht))
      (hrest (parent.addChild (atom t)))
  case opened =>
    intro t rest ht hform hrest parent
    have hstart : ¬ AtEnd (t :: rest) := by simp [atEnd_cons, ht]
    rw [(items_open ht).1, (items_open ht).2]
    exact yields_items_pass hstart (yields_item_form ht (hform t))
      (hrest (parent.addChild (form t.line rest).value))
  case empty => exact fun ahead h l => yields_form_empty h
  case call => exact fun t rest hc he hitems l => yields_form_call hc he hitems
  case plain =>
    exact fun t rest ht h hitems l => yields_form_equals ht (yields_definition_plain h hitems)
  case nameless =>
    intro t o rest ht ho hrest l
    refine yields_form_equals ht (yields_definition_open ho (yields_signature_nameless hrest) ?_)
    intro parent
    rw [(signature_atEnd hrest).2, (items_atEnd hrest).1, (items_atEnd hrest).2]
    exact yields_items_stop hrest
  case named =>
    intro t o name rest ht ho hname hitems hbody l
    refine yields_form_equals ht (yields_definition_open ho (yields_signature_name hname hitems) ?_)
    rw [(signature_name hname).2]
    exact hbody

theorem yields_execution :
    Yields tokens Routine.execution.script (t :: rest) (.ok (some (execution t rest).value))
      (execution t rest).rest := by
  refine .advance (.peek ?_)
  rcases open_or_not rest with halone | ⟨u, later, rfl, hu⟩
  · rw [(execution_alone halone).1, (execution_alone halone).2, List.tail_cons,
      if_neg (not_isNext halone)]
    exact .finish
  · rw [(execution_open hu).1, (execution_open hu).2, List.tail_cons, List.head?_cons,
      if_pos (isNext_some.2 hu)]
    exact .call ((yields_all tokens).2 later u) .finish

theorem yields_topLevel :
    Yields tokens Routine.topLevel.script (t :: rest) (.ok (topLevel t rest).value)
      (topLevel t rest).rest := by
  refine .peek ?_
  rw [List.head?_cons, if_neg (by simp)]
  by_cases hc : t.kind = .comment
  · rw [(topLevel_comment hc).1, (topLevel_comment hc).2, if_pos (isNext_some.2 hc)]
    exact .call (.advance .finish) .finish
  rw [if_neg (mt isNext_some.1 hc)]
  by_cases he : t.kind = .execute
  · rw [(topLevel_execute he).1, (topLevel_execute he).2, if_pos (isNext_some.2 he)]
    exact .call yields_execution .finish
  rw [if_neg (mt isNext_some.1 he)]
  by_cases ho : t.kind = .openParen
  · rw [(topLevel_open ho).1, (topLevel_open ho).2, if_pos (isNext_some.2 ho)]
    exact .call ((yields_all tokens).2 rest t) .finish
  · rw [(topLevel_other hc he ho).1, (topLevel_other hc he ho).2,
      if_neg (mt isNext_some.1 ho)]
    exact .advance .finish

theorem yields_topLevels (root : Node) :
    Yields tokens (Routine.topLevels root).script ahead
      (.ok (some (root.addChildren (topLevels ahead)))) [] := by
  induction ahead using topLevels_induction generalizing root with
  | nil =>
    rw [topLevels]
    exact .peek .finish
  | step t rest ih =>
    rw [topLevels_cons, ← addChildren_addAny]
    refine .peek ?_
    rw [List.head?_cons, if_neg (by simp)]
    exact .call yields_topLevel (.call (ih _) .finish)

theorem yields_item :
    ∃ child left, Yields tokens Routine.item.script (t :: rest) (.ok (some child)) left ∧
      left.length ≤ rest.length := by
  by_cases h : t.kind = .openParen
  · exact ⟨_, _, yields_item_form h ((yields_all tokens).2 rest t), (form t.line rest).rest_le⟩
  · exact ⟨_, _, yields_item_atom h, Nat.le_refl _⟩

theorem yields_signature :
    Yields tokens Routine.signature.script ahead (.ok (signature ahead.tail).value)
      (signature ahead.tail).rest := by
  by_cases h : AtEnd ahead.tail
  · exact yields_signature_nameless h
  · match ahead, h with
    | [], h => exact absurd atEnd_nil h
    | [_], h => exact absurd atEnd_nil h
    | o :: name :: rest, h =>
      exact yields_signature_name (mt atEnd_cons.2 h) ((yields_all tokens).1 rest)

theorem yields_definition :
    Yields tokens (Routine.definition line).script ahead
      (.ok (some (definition line ahead.tail).value)) (definition line ahead.tail).rest := by
  rcases open_or_not ahead.tail with hplain | ⟨o, rest, htail, ho⟩
  · exact yields_definition_plain hplain ((yields_all tokens).1 _)
  · match ahead, htail with
    | t :: _, rfl =>
      exact yields_definition_open ho yields_signature ((yields_all tokens).1 _)

end

/-- The step of a cursor that calls a reader. The loops cannot be called for by themselves. -/
def Routine.step? : Routine → Option Step
  | .topLevel => some .topLevel
  | .comment => some .comment
  | .execution => some .execution
  | .form => some .form
  | .definition line => some (.definition line)
  | .signature => some .signature
  | .call line => some (.call line)
  | .item => some .item
  | .atom => some .atom
  | .program | .topLevels _ | .items _ => none

theorem yields_step {routine : Routine} {step : Step} (h : routine.step? = some step)
    (tokens ahead : List Token) :
    ∃ outcome left, Yields tokens routine.script ahead outcome left ∧ ∀ total,
      Cursor.step ⟨total, ahead⟩ step = (outcome.map StepResult.ofNode?, ⟨total, left⟩) := by
  cases routine with
  | program => cases h
  | topLevels root => cases h
  | items parent => cases h
  | topLevel =>
    cases h
    cases ahead with
    | nil => exact ⟨_, _, .peek .finish, fun _ => rfl⟩
    | cons t rest => exact ⟨_, _, yields_topLevel, fun _ => rfl⟩
  | comment =>
    cases h
    cases ahead with
    | nil => exact ⟨_, _, .advance .fail, fun _ => rfl⟩
    | cons t rest => exact ⟨_, _, .advance .finish, fun _ => rfl⟩
  | execution =>
    cases h
    cases ahead with
    | nil => exact ⟨_, _, .advance (.peek .fail), fun _ => rfl⟩
    | cons t rest => exact ⟨_, _, yields_execution, fun _ => rfl⟩
  | form =>
    cases h
    cases ahead with
    | nil => exact ⟨_, _, .advance .fail, fun _ => rfl⟩
    | cons t rest => exact ⟨_, _, (yields_all tokens).2 rest t, fun _ => rfl⟩
  | definition line =>
    cases h
    exact ⟨_, _, yields_definition, fun _ => rfl⟩
  | signature =>
    cases h
    cases ahead with
    | nil => exact ⟨_, _, .advance (.peek .finish), fun _ => rfl⟩
    | cons o rest => exact ⟨_, _, yields_signature, fun _ => rfl⟩
  | call line =>
    cases h
    exact ⟨_, _, yields_call ((yields_all tokens).1 ahead), fun _ => rfl⟩
  | item =>
    cases h
    cases ahead with
    | nil => exact ⟨_, _, .peek .finish, fun _ => rfl⟩
    | cons t rest =>
      by_cases ht : t.kind = .openParen
      · refine ⟨_, _, yields_item_form ht ((yields_all tokens).2 rest t), fun _ => ?_⟩
        simp [Cursor.step, Cursor.withFirst, ht, Except.map, StepResult.ofNode?]
      · refine ⟨_, _, yields_item_atom ht, fun _ => ?_⟩
        simp [Cursor.step, Cursor.withFirst, ht, Except.map, StepResult.ofNode?]
  | atom =>
    cases h
    cases ahead with
    | nil => exact ⟨_, _, .advance .finish, fun _ => rfl⟩
    | cons t rest => exact ⟨_, _, yields_atom, fun _ => rfl⟩

structure GoesWell (tokens : List Token) (start script : Script) (i : Nat) : Prop where
  within : i ≤ tokens.length
  not_fail : ∀ error, script ≠ .fail error
  returns : ∀ routine next, script = .call routine next →
    ∃ node? j, Ends tokens routine.script i (.ok node?) j ∧ ∀ step, routine.step? = some step →
      (Cursor.at tokens i).step step = (.ok (.ofNode? node?), Cursor.at tokens j)
  topLevel_takes : ∀ next, script = .call .topLevel next → i < tokens.length →
    ∃ node? j, Ends tokens Routine.topLevel.script i (.ok node?) j ∧ i < j
  pass_takes : ∀ parent next t, script = .call (.items parent) next →
    tokens[i]? = some t → t.kind ≠ .closeParen →
    ∃ child j, Ends tokens Routine.item.script i (.ok (some child)) j ∧ i < j ∧
      Reaches tokens start 0 (.call (.items (parent.addChild child)) .finish) j

section
variable {tokens rest left : List Token} {script : Script} {outcome : Outcome} {t : Token}
  {i : Nat}

theorem Yields.exists_gt (h : Yields tokens script (t :: rest) outcome left)
    (hleft : left.length ≤ rest.length) (hi : tokens.drop i = t :: rest) :
    ∃ j, Ends tokens script i outcome j ∧ i < j := by
  have hlength := congrArg List.length hi
  rw [List.length_drop, List.length_cons] at hlength
  obtain ⟨j, hj, hends, hdrop⟩ := h i (by omega) hi
  have hlength' := congrArg List.length hdrop
  rw [List.length_drop] at hlength'
  exact ⟨j, hends, by omega⟩

theorem drop_of_getElem? (h : tokens[i]? = some t) : tokens.drop i = t :: tokens.drop (i + 1) := by
  obtain ⟨hlt, rfl⟩ := List.getElem?_eq_some_iff.1 h
  exact List.drop_eq_getElem_cons hlt

theorem program_ends (tokens : List Token) :
    Ends tokens Routine.program.script 0 (.ok (some (Node.ofTokens tokens))) tokens.length := by
  have hyields : Yields tokens Routine.program.script tokens
      (.ok (some (Node.ofTokens tokens))) [] := .call (yields_topLevels _) .finish
  obtain ⟨j, hj, hends, hdrop⟩ := hyields 0 (Nat.zero_le _) rfl
  rw [List.drop_eq_nil_iff] at hdrop
  rwa [Nat.le_antisymm hj hdrop] at hends

theorem reaches_pass {parent child : Node} {next : Option Node → Script} {j : Nat}
    (hi : tokens[i]? = some t) (ht : t.kind ≠ .closeParen)
    (hitem : Ends tokens Routine.item.script i (.ok (some child)) j) :
    Reaches tokens (.call (.items parent) next) i
      (.call (.items (parent.addChild child)) .finish) j := by
  refine .enter (.peek ?_)
  rw [hi, Option.isNone_some, Bool.false_or, if_neg (mt isNext_some.1 ht)]
  exact .resume hitem .refl

theorem goesWell_of_reaches (h : Reaches tokens Routine.program.script 0 script i) :
    GoesWell tokens Routine.program.script script i := by
  have hwithin := h.le_length (Nat.zero_le _)
  obtain ⟨node?, k, hends⟩ := h.ends_ok (program_ends tokens)
  refine ⟨hwithin, ?_, ?_, ?_, ?_⟩
  · rintro error rfl
    cases hends
  · rintro routine next rfl
    cases hends with
    | call hcall _ =>
      refine ⟨_, _, hcall, fun step hstep => ?_⟩
      obtain ⟨outcome, left, hyields, hcursor⟩ := yields_step hstep tokens (tokens.drop i)
      obtain ⟨j, -, hroutine, rfl⟩ := hyields i hwithin rfl
      obtain ⟨rfl, rfl⟩ := hroutine.unique hcall
      exact hcursor tokens.length
  · rintro next rfl hi
    have hdrop := drop_of_getElem? (List.getElem?_eq_getElem hi)
    obtain ⟨j, hroutine, hlt⟩ := yields_topLevel.exists_gt (topLevel _ _).rest_le hdrop
    exact ⟨_, j, hroutine, hlt⟩
  · rintro parent next t rfl hi ht
    obtain ⟨child, left, hyields, hle⟩ := @yields_item tokens (tokens.drop (i + 1)) t
    obtain ⟨j, hitem, hlt⟩ := hyields.exists_gt hle (drop_of_getElem? hi)
    exact ⟨child, j, hitem, hlt, h.trans (reaches_pass hi ht hitem)⟩

end

/-- Reading ends on every input, with the tree of the input and behind its last token. On the way
there the index stays within the tokens, nothing is asked of a missing token, every reader that is
called comes back, and each pass of a loop takes at least one token. -/
theorem reading_ends (bytes : List UInt8) :
    (∀ outcome j, Ends (tokensOf bytes) Routine.program.script 0 outcome j ↔
      outcome = .ok (some (Node.ofBytes bytes)) ∧ j = (tokensOf bytes).length) ∧
    ∀ script i, Reaches (tokensOf bytes) Routine.program.script 0 script i →
      GoesWell (tokensOf bytes) Routine.program.script script i := by
  refine ⟨fun outcome j => ⟨fun h => ?_, ?_⟩, fun script i h => goesWell_of_reaches h⟩
  · exact h.unique (program_ends (tokensOf bytes))
  · rintro ⟨rfl, rfl⟩
    exact program_ends (tokensOf bytes)

def tornBytes : List UInt8 := [0x28, 0xff, 0x66]

theorem tornBytes_end :
    Ends (tokensOf tornBytes) Routine.program.script 0 (.ok (some (Node.ofBytes tornBytes))) 2 ∧
      Reaches (tokensOf tornBytes) Routine.program.script 0
        (.call (.items (.leaf .expression "" 1)) .finish) 1 ∧
      ∃ child j, Ends (tokensOf tornBytes) Routine.item.script 1 (.ok (some child)) j ∧ 1 < j := by
  have htokens : tokensOf tornBytes = [⟨.openParen, "(", 1, 0⟩, ⟨.atom, "f", 1, 1⟩] := by
    decide +kernel
  have hreaches : Reaches (tokensOf tornBytes) Routine.program.script 0
      (.call (.items (.leaf .expression "" 1)) .finish) 1 := by
    rw [htokens]
    exact .enter (.peek (.enter (.peek (.enter (.advance (.peek (.enter .refl)))))))
  obtain ⟨hends, hwell⟩ := reading_ends tornBytes
  have hatom : (tokensOf tornBytes)[1]? = some ⟨.atom, "f", 1, 1⟩ := by rw [htokens]; rfl
  obtain ⟨child, j, hitem, hlt, -⟩ := (hwell _ _ hreaches).pass_takes _ _ _ rfl hatom (by decide)
  exact ⟨(hends _ 2).2 ⟨rfl, by rw [htokens]; rfl⟩, hreaches, child, j, hitem, hlt⟩

end CodeAtlas.Metta
