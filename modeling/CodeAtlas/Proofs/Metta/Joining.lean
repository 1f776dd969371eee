import CodeAtlas.Proofs.Json.Members
import CodeAtlas.Proofs.Metta.Likeness
import CodeAtlas.Proofs.Metta.Lines
import CodeAtlas.Proofs.Metta.OuterForms
import CodeAtlas.Proofs.Metta.Places
import CodeAtlas.Proofs.Metta.Report
import CodeAtlas.Proofs.Text.Utf8

/-! Programs written one below the other. If the upper one leaves nothing open then each is read as
if it were alone, only that the lower one stands further down, and so their reports are joined. -/

namespace CodeAtlas.Metta

open List (Forall₂)

namespace Parser

variable {t : Token} {rest tokens more : List Token}

theorem closesAll_suffix {later : List Token} (h : ClosesAll tokens) (hlater : later <:+ tokens) :
    ClosesAll later := fun last hlast => h last (hlast.trans hlater)

theorem form_append (ht : t.kind = .openParen) (h : ClosesAll (t :: rest)) (line : Int) :
    (form line (rest ++ more)).value = (form line rest).value ∧
      (form line (rest ++ more)).rest = (form line rest).rest ++ more := by
  obtain ⟨taken, r, -, htaken, -, hreads, -⟩ | ⟨-, hstays⟩ := taken_all.2 rest t line ht
  · have happend : rest ++ more = taken ++ [r] ++ ((form line rest).rest ++ more) := by
      rw [List.append_assoc, List.singleton_append, ← List.cons_append, ← List.append_assoc,
        ← htaken]
    rw [happend]
    exact hreads _
  · have hopen := h _ (List.suffix_refl _)
    have hnonneg := hstays.balance_nonneg
    rw [balance_cons, rise_open ht] at hopen
    omega

theorem execution_append (h : ClosesAll tokens) (hne : tokens ≠ []) (mark : Token) :
    (execution mark (tokens ++ more)).value = (execution mark tokens).value ∧
      (execution mark (tokens ++ more)).rest = (execution mark tokens).rest ++ more := by
  cases tokens with
  | nil => exact absurd rfl hne
  | cons u rest =>
    by_cases hu : u.kind = .openParen
    · have hform := @form_append u rest more hu h u.line
      rw [List.cons_append, (execution_open hu).1, (execution_open hu).2, (execution_open hu).1,
        (execution_open hu).2, hform.1, hform.2]
      exact ⟨rfl, rfl⟩
    · have halone (tokens : List Token) := @execution_alone (u :: tokens) mark (by simpa using hu)
      rw [List.cons_append, (halone _).1, (halone _).2, (halone _).1, (halone _).2]
      exact ⟨rfl, rfl⟩

theorem topLevel_append (h : ClosesAll (t :: rest)) (hmark : t.kind = .execute → rest ≠ []) :
    (topLevel t (rest ++ more)).value = (topLevel t rest).value ∧
      (topLevel t (rest ++ more)).rest = (topLevel t rest).rest ++ more := by
  by_cases ho : t.kind = .openParen
  · have hform := @form_append t rest more ho h t.line
    rw [(topLevel_open ho).1, (topLevel_open ho).2, (topLevel_open ho).1, (topLevel_open ho).2,
      hform.1, hform.2]
    exact ⟨rfl, rfl⟩
  by_cases he : t.kind = .execute
  · have hrest := closesAll_suffix h (List.suffix_cons t rest)
    have hrun := @execution_append rest more hrest (hmark he) t
    rw [(topLevel_execute he).1, (topLevel_execute he).2, (topLevel_execute he).1,
      (topLevel_execute he).2, hrun.1, hrun.2]
    exact ⟨rfl, rfl⟩
  by_cases hc : t.kind = .comment
  · rw [(topLevel_comment hc).1, (topLevel_comment hc).2, (topLevel_comment hc).1,
      (topLevel_comment hc).2]
    exact ⟨rfl, rfl⟩
  · rw [(topLevel_other hc he ho).1, (topLevel_other hc he ho).2, (topLevel_other hc he ho).1,
      (topLevel_other hc he ho).2]
    exact ⟨rfl, rfl⟩

theorem open_or_not (tokens : List Token) :
    (∀ u ∈ tokens.head?, u.kind ≠ .openParen) ∨
      ∃ u later, tokens = u :: later ∧ u.kind = .openParen := by
  cases tokens with
  | nil => exact .inl (by simp)
  | cons u later =>
    by_cases hu : u.kind = .openParen
    · exact .inr ⟨u, later, rfl, hu⟩
    · exact .inl (by simpa using hu)

theorem rest_topLevel_suffix (t : Token) (rest : List Token) : (topLevel t rest).rest <:+ rest := by
  by_cases ho : t.kind = .openParen
  · rw [(topLevel_open ho).2]
    exact rest_form_suffix t.line rest
  by_cases he : t.kind = .execute
  · rw [(topLevel_execute he).2]
    rcases open_or_not rest with halone | ⟨u, later, rfl, hu⟩
    · exact ⟨[], (execution_alone halone).2⟩
    · rw [(execution_open hu).2]
      exact (rest_form_suffix u.line later).trans (List.suffix_cons u later)
  by_cases hc : t.kind = .comment
  · exact ⟨[], (topLevel_comment hc).2⟩
  · exact ⟨[], (topLevel_other hc he ho).2⟩

theorem topLevels_induction {P : List Token → Prop} (nil : P [])
    (step : ∀ t rest, P (topLevel t rest).rest → P (t :: rest)) (tokens : List Token) :
    P tokens := by
  -- On the length, because a form takes many tokens at once.
  induction hn : tokens.length using Nat.strongRecOn generalizing tokens with
  | ind n ih =>
    cases tokens with
    | nil => exact nil
    | cons t rest =>
      have hle := (rest_topLevel_suffix t rest).length_le
      rw [List.length_cons] at hn
      exact step t rest (ih _ (by omega) _ rfl)

theorem topLevels_append (h : ClosesAll tokens)
    (hlast : ∀ t ∈ tokens.getLast?, t.kind ≠ .execute) :
    topLevels (tokens ++ more) = topLevels tokens ++ topLevels more := by
  induction tokens using topLevels_induction with
  | nil =>
    rw [topLevels]
    rfl
  | step t rest ih =>
    have hsuffix := (rest_topLevel_suffix t rest).trans (List.suffix_cons t rest)
    have hmark : t.kind = .execute → rest ≠ [] := by
      rintro he rfl
      exact hlast t rfl he
    have hlater : ∀ u ∈ (topLevel t rest).rest.getLast?, u.kind ≠ .execute := by
      intro u hu
      obtain ⟨before, hbefore⟩ := hsuffix
      apply hlast u
      rw [← hbefore, List.getLast?_append, hu]
      rfl
    have hrest := ih (closesAll_suffix h hsuffix) hlater
    have hfirst := @topLevel_append t rest more h hmark
    rw [List.cons_append, topLevels_cons, topLevels_cons, hfirst.1, hfirst.2, hrest,
      List.append_assoc]

end Parser

def Node.shift (lines : Nat) (node : Node) : Node := node.mapPlaces (· + lines) (· + lines)

namespace Node

variable (lines : Nat)

theorem shift_leaf (kind : NodeKind) (value : String) (line : Int) :
    (leaf kind value line).shift lines = leaf kind value (line + lines) := by
  have hrow : line - 1 + lines = line + lines - 1 := by omega
  simp only [shift, mapPlaces_eq, leaf, span, hrow, List.map_nil]

theorem shift_make (kind : NodeKind) (value : String) (line : Int) {lastLine : Int}
    (h : 0 < lastLine) : (make kind value line (some lastLine)).shift lines =
      make kind value (line + lines) (some (lastLine + lines)) := by
  have hopen : lastLine ≠ 0 := by omega
  have hopen' : lastLine + lines ≠ 0 := by omega
  have hrow : line - 1 + lines = line + lines - 1 := by omega
  have hlastRow : lastLine - 1 + lines = lastLine + lines - 1 := by omega
  simp only [make, if_neg hopen, if_neg hopen', shift, mapPlaces_eq, span, hrow, hlastRow,
    List.map_nil]

theorem lastLine_make (kind : NodeKind) (value : String) (line : Int) {lastLine : Int}
    (h : 0 < lastLine) : (make kind value line (some lastLine)).lastLine = lastLine := by
  have hopen : lastLine ≠ 0 := by omega
  simp only [make, if_neg hopen, span]

theorem shift_addChild (node child : Node) :
    (node.addChild child).shift lines = (node.shift lines).addChild (child.shift lines) := by
  have hrow : child.lastLine - 1 + lines = child.lastLine + lines - 1 := by omega
  unfold addChild
  by_cases hlong : child.lastLine > node.lastLine
  · rw [if_pos hlong, if_pos (by simpa [shift] using hlong)]
    simp [shift, mapPlaces_eq, hrow]
  · rw [if_neg hlong, if_neg (by simpa [shift] using hlong)]
    simp [shift, mapPlaces_eq]

theorem lastLine_addChild (node child : Node) :
    (node.addChild child).lastLine = max node.lastLine child.lastLine := by
  unfold addChild
  split <;> simp <;> omega

end Node

theorem likeness_shift (lines : Nat) :
    Likeness (fun t u => u = t.shift lines ∧ 0 < t.line)
      fun node node' => node' = node.shift lines ∧ 0 < node.lastLine where
  kind h := by rw [h.1]; rfl
  text h := by rw [h.1]; rfl
  leaf kind value h := by
    refine ⟨?_, by simpa [Node.leaf, Node.span] using h.2⟩
    rw [h.1, Node.shift_leaf]
    rfl
  addChild := by
    rintro node _ child _ ⟨rfl, hnode⟩ ⟨rfl, hchild⟩
    refine ⟨(Node.shift_addChild lines node child).symm, ?_⟩
    rw [Node.lastLine_addChild]
    omega
  closedAt := by
    rintro node _ t _ ⟨rfl, hnode⟩ ⟨rfl, ht⟩
    have hrow : (t.line : Int) + lines - 1 = t.line - 1 + lines := by omega
    refine ⟨?_, by simpa using ht⟩
    simp [Node.shift, Node.mapPlaces_eq, Node.closedAt, Token.shift, hrow]
  signatureClosedAt := by
    rintro node _ t _ ⟨rfl, hnode⟩ ⟨rfl, ht⟩
    refine ⟨?_, by simpa [Node.signatureClosedAt] using ht⟩
    simp [Node.shift, Node.mapPlaces_eq, Node.signatureClosedAt, Token.shift]
  run := by
    rintro body _ t _ ⟨rfl, ht⟩ ⟨rfl, hbody⟩
    refine ⟨?_, ?_⟩
    · rw [Node.shift_addChild, Node.shift_make _ _ _ _ hbody]
      simp [Node.shift, Token.shift]
    · rw [Node.lastLine_addChild, Node.lastLine_make _ _ _ hbody, Int.max_self]
      exact hbody

theorem Lexer.line_le_of_mem_tokensAt {place : Place} {pieces : List (Lexeme × List Char)}
    {t : Token} (h : t ∈ tokensAt place pieces) : place.line ≤ t.line := by
  induction pieces generalizing place with
  | nil => simp [tokensAt] at h
  | cons piece pieces ih =>
    obtain ⟨lexeme, text⟩ := piece
    rw [tokensAt, List.mem_append] at h
    rcases h with hfirst | hlater
    · cases lexeme with
      | token kind =>
        obtain rfl : t = _ := by simpa [tokenAt?] using hfirst
        exact Nat.le_refl _
      | padding | newline | stray => simp [tokenAt?] at hfirst
    · have hle := ih hlater
      cases lexeme <;> simp only [Place.after] at hle <;> omega

theorem line_pos_of_mem_tokenize {s : String} {t : Token} (h : t ∈ tokenize s) : 0 < t.line := by
  rw [tokenize, Lexer.tokensFrom_eq] at h
  exact Lexer.line_le_of_mem_tokensAt h

theorem topLevels_shift {tokens : List Token} (h : ∀ t ∈ tokens, 0 < t.line) (lines : Nat) :
    Parser.topLevels (tokens.map (Token.shift lines)) =
      (Parser.topLevels tokens).map (Node.shift lines) := by
  have htokens : Forall₂ (fun t u : Token => u = t.shift lines ∧ 0 < t.line) tokens
      (tokens.map (Token.shift lines)) := by
    rw [List.forall₂_map_right_iff, List.forall₂_same]
    exact fun t ht => ⟨rfl, h t ht⟩
  have hnodes := (likeness_shift lines).topLevels htokens
  have hvalues : Forall₂ Eq ((Parser.topLevels tokens).map (Node.shift lines))
      (Parser.topLevels (tokens.map (Token.shift lines))) :=
    List.forall₂_map_left_iff.2 (hnodes.imp fun _ _ hnode => hnode.1.symm)
  exact (List.forall₂_eq_eq_eq ▸ hvalues : _ = _).symm

theorem Node.definitions_program {root : Node} (h : root.kind = .program) :
    root.definitions.functions = (root.children.flatMap nodes).filterMap function? ∧
      root.definitions.executions = (root.children.flatMap nodes).filterMap execution? ∧
      root.definitions.facts = (root.children.flatMap nodes).filterMap fact? ∧
      root.definitions.expressionCount = (root.children.flatMap nodes).countP isPlainExpression ∧
      root.definitions.variableNames =
        Text.sortedUnique (valuesOf .variable (root.children.flatMap nodes)) ∧
      root.definitions.spaces =
        Text.sortedUnique (valuesOf .space (root.children.flatMap nodes)) := by
  have hfunction : root.function? = none := function?_of_ne (by simp [h])
  have hexecution : root.execution? = none := execution?_of_ne (by simp [h])
  have hfact : root.fact? = none := fact?_of_ne (by simp [h])
  have hplain : ¬ root.isPlainExpression := by simp [isPlainExpression, h]
  have hvalues (kind : NodeKind) (hkind : kind ≠ .program) (all : List Node) :
      valuesOf kind (root :: all) = valuesOf kind all := by
    have hne : root.kind ≠ kind := fun heq => hkind (heq.symm.trans h)
    rw [valuesOf, valuesOf, List.filter_cons_of_neg (by simpa using hne)]
  simp only [definitions, nodes_eq root]
  rw [hvalues .variable (by simp), hvalues .space (by simp)]
  exact ⟨List.filterMap_cons_none hfunction, List.filterMap_cons_none hexecution,
    List.filterMap_cons_none hfact, List.countP_cons_of_neg hplain, rfl, rfl⟩

theorem Node.definitions_joined {whole upper lower : Node} {lines : Nat}
    (hwhole : whole.kind = .program) (hupper : upper.kind = .program)
    (hlower : lower.kind = .program)
    (h : whole.children = upper.children ++ lower.children.map (shift lines)) :
    whole.definitions.functions = upper.definitions.functions ++
        lower.definitions.functions.map (Function.mapLines (· + lines)) ∧
      whole.definitions.executions = upper.definitions.executions ++
        lower.definitions.executions.map (Execution.mapLine (· + lines)) ∧
      whole.definitions.facts = upper.definitions.facts ++
        lower.definitions.facts.map (Fact.mapLine (· + lines)) ∧
      whole.definitions.expressionCount =
        upper.definitions.expressionCount + lower.definitions.expressionCount := by
  have hnodes : whole.children.flatMap nodes = upper.children.flatMap nodes ++
      (lower.children.flatMap nodes).map (shift lines) := by
    rw [h, List.flatMap_append]
    exact congrArg _ (flatMap_nodes_mapPlaces _ _ _)
  obtain ⟨hfunctions, hexecutions, hfacts, hcount, -⟩ := definitions_program hwhole
  obtain ⟨hfunctions', hexecutions', hfacts', hcount', -⟩ := definitions_program hupper
  obtain ⟨hfunctions'', hexecutions'', hfacts'', hcount'', -⟩ := definitions_program hlower
  refine ⟨?_, ?_, ?_, ?_⟩
  · rw [hfunctions, hfunctions', hfunctions'', hnodes, List.filterMap_append, List.filterMap_map,
      List.map_filterMap]
    exact congrArg (_ ++ ·) (List.filterMap_congr fun node _ => function?_mapPlaces _ _ node)
  · rw [hexecutions, hexecutions', hexecutions'', hnodes, List.filterMap_append,
      List.filterMap_map, List.map_filterMap]
    exact congrArg (_ ++ ·) (List.filterMap_congr fun node _ => execution?_mapPlaces _ _ node)
  · rw [hfacts, hfacts', hfacts'', hnodes, List.filterMap_append, List.filterMap_map,
      List.map_filterMap]
    exact congrArg (_ ++ ·) (List.filterMap_congr fun node _ => fact?_mapPlaces _ _ node)
  · rw [hcount, hcount', hcount'', hnodes, List.countP_append, List.countP_map]
    exact congrArg (_ + ·) (List.countP_congr fun node _ => by
      rw [Function.comp_apply, shift, isPlainExpression_mapPlaces])

def Definitions.tally (d : Definitions) (key : String) : Except Json.Fault Json :=
  (d.toJson.require "summary").bind fun counts => counts.require key

def tallyKeys : List String :=
  ["function_count", "expression_count", "execution_count", "fact_count"]

theorem Definitions.tally_eq (d : Definitions) :
    d.tally "function_count" = .ok (.ofNat d.functions.length) ∧
      d.tally "expression_count" = .ok (.ofNat d.expressionCount) ∧
      d.tally "execution_count" = .ok (.ofNat d.executions.length) ∧
      d.tally "fact_count" = .ok (.ofNat d.facts.length) := by
  simp [tally, toJson, Json.require, Except.bind]

def Node.ofText (s : String) : Node := .ofBytes (Text.Utf8.encode s)

theorem Node.ofText_eq (s : String) : ofText s = ofTokens (tokenize s) := by
  rw [ofText, ofBytes, Text.Utf8.decodeLenient_encode, String.ofList_toList]

theorem Node.kind_ofText (s : String) : (ofText s).kind = .program := by
  simp [ofText_eq, ofTokens]

theorem Node.children_ofText (s : String) :
    (ofText s).children = Parser.topLevels (tokenize s) := by
  simp [ofText_eq, ofTokens]

/-- A program that leaves nothing open can be continued on a new line: the tree is that of the one
followed by that of the other moved down, and so are the reports. -/
theorem joined_program (a b : String) (hquotes : QuotesEnclosed a)
    (hbalanced : Balanced (tokenize a)) (hlast : ∀ t ∈ (tokenize a).getLast?, t.kind ≠ .execute) :
    let lines := 1 + lineFeeds a
    let upper := Node.ofText a
    let lower := Node.ofText b
    let whole := Node.ofText (a ++ "\n" ++ b)
    whole.children = upper.children ++ lower.children.map (Node.shift lines) ∧
      whole.definitions.functions = upper.definitions.functions ++
        lower.definitions.functions.map (Function.mapLines (· + lines)) ∧
      whole.definitions.executions = upper.definitions.executions ++
        lower.definitions.executions.map (Execution.mapLine (· + lines)) ∧
      whole.definitions.facts = upper.definitions.facts ++
        lower.definitions.facts.map (Fact.mapLine (· + lines)) ∧
      ∀ key ∈ tallyKeys, ∃ m n : Nat, upper.definitions.tally key = .ok (.ofNat m) ∧
        lower.definitions.tally key = .ok (.ofNat n) ∧
        whole.definitions.tally key = .ok (.ofNat (m + n)) := by
  intro lines upper lower whole
  have hchildren : whole.children = upper.children ++ lower.children.map (Node.shift lines) := by
    rw [Node.children_ofText, Node.children_ofText, Node.children_ofText, tokenize_join hquotes,
      Parser.topLevels_append hbalanced.closesAll hlast,
      topLevels_shift fun t => line_pos_of_mem_tokenize]
  obtain ⟨hfunctions, hexecutions, hfacts, hcount⟩ :=
    Node.definitions_joined (Node.kind_ofText _) (Node.kind_ofText a) (Node.kind_ofText b)
      hchildren
  obtain ⟨h₁, h₂, h₃, h₄⟩ := whole.definitions.tally_eq
  rw [hfunctions, List.length_append, List.length_map] at h₁
  rw [hcount] at h₂
  rw [hexecutions, List.length_append, List.length_map] at h₃
  rw [hfacts, List.length_append, List.length_map] at h₄
  refine ⟨hchildren, hfunctions, hexecutions, hfacts, ?_⟩
  obtain ⟨ha₁, ha₂, ha₃, ha₄⟩ := upper.definitions.tally_eq
  obtain ⟨hb₁, hb₂, hb₃, hb₄⟩ := lower.definitions.tally_eq
  simp only [tallyKeys, List.forall_mem_cons, List.not_mem_nil, false_implies, implies_true,
    and_true]
  exact ⟨⟨_, _, ha₁, hb₁, h₁⟩, ⟨_, _, ha₂, hb₂, h₂⟩, ⟨_, _, ha₃, hb₃, h₃⟩, ⟨_, _, ha₄, hb₄, h₄⟩⟩

def upperSource : String := "; \"two\" names\n(= (f $x) (g \"a\nb\")) !(f 1)\n(= () x) ; (done"

def lowerSource : String := "(A b C)\n!(f\n 2"

theorem joined_upperSource :
    QuotesEnclosed upperSource ∧ Balanced (tokenize upperSource) ∧
      (∀ t ∈ (tokenize upperSource).getLast?, t.kind ≠ .execute) ∧ lineFeeds upperSource = 2 ∧
      (Node.ofText (upperSource ++ "\n" ++ lowerSource)).children =
        (Node.ofText upperSource).children ++
          (Node.ofText lowerSource).children.map (Node.shift 3) := by
  have hquotes : QuotesEnclosed upperSource := by decide +kernel
  have hlast : ∀ t ∈ (tokenize upperSource).getLast?, t.kind ≠ .execute := by decide +kernel
  have hfeeds : lineFeeds upperSource = 2 := by decide +kernel
  have hbalanced : Balanced (tokenize upperSource) := by decide +kernel
  have hjoined := joined_program upperSource lowerSource hquotes hbalanced hlast
  rw [hfeeds] at hjoined
  exact ⟨hquotes, hbalanced, hlast, hfeeds, hjoined.1⟩

end CodeAtlas.Metta
