import CodeAtlas.Proofs.Metta.Remarks

/-! What comments do to the report of a program. Functions, variables and spaces do not depend on
them; but remarks are counted among the parts of a form, so that they may change the phrase of a
form that is run, and may make a fact or undo one. -/

namespace CodeAtlas.Metta

theorem toList_phrase {head : String} {n : Nat} (h : n ≠ 0) :
    (phrase head n).toList = head.toList ++ '(' :: (Nat.toDigits 10 n ++ " args)".toList) := by
  have hparts : phrase head n = head ++ "(" ++ toString n ++ " args)" := if_neg h
  simp [hparts]

theorem phrase_inj {head : String} {m n : Nat} (h : phrase head m = phrase head n) : m = n := by
  have hlists := congrArg String.toList h
  by_cases hm : m = 0
  · by_cases hn : n = 0
    · rw [hm, hn]
    · have hlength := congrArg List.length hlists
      rw [toList_phrase hn, phrase, if_pos hm] at hlength
      simp at hlength
  · by_cases hn : n = 0
    · have hlength := congrArg List.length hlists
      rw [toList_phrase hm, phrase, if_pos hn] at hlength
      simp at hlength
    · rw [toList_phrase hm, toList_phrase hn] at hlists
      have hdigits : Nat.toDigits 10 m = Nat.toDigits 10 n := by simpa using hlists
      have hnumbers := congrArg (Nat.ofDigitChars 10 · 0) hdigits
      simpa using hnumbers

theorem head?_phrase (head : String) (n : Nat) :
    (phrase head n).toList.head? = some ';' ↔ head.toList.head? = some ';' := by
  by_cases hn : n = 0
  · rw [phrase, if_pos hn]
  · rw [toList_phrase hn]
    cases head.toList <;> simp

/-- A node of a form: not one that is run, and a remark just if it starts with a semicolon. -/
structure Node.IsInner (node : Node) : Prop where
  kind : node.kind ≠ .execution
  remark : node.isRemark ↔ node.value.toList.head? = some ';'

namespace Parser

variable {t : Token} {rest tokens : List Token}

theorem isInner_atom (h : t.text.toList.head? = some ';' ↔ t.kind = .comment) :
    (atom t).IsInner := by
  refine ⟨?_, (isRemark_atom h).trans h.symm⟩
  rw [kind_atom]
  cases t.kind <;> simp [atomKind]

theorem isInner_of_empty {node : Node} (hkind : node.kind ≠ .execution ∧ node.kind ≠ .comment)
    (hvalue : node.value = "") : node.IsInner := by
  refine ⟨hkind.1, ?_⟩
  simp [Node.isRemark, hkind.2, hvalue]

theorem isInner_nodes {root : Node} (hroot : root.IsInner)
    (h : ∀ node ∈ root.children.flatMap Node.nodes, node.IsInner) :
    ∀ node ∈ root.nodes, node.IsInner := by
  rw [Node.nodes_eq]
  exact List.forall_mem_cons.2 ⟨hroot, h⟩

def ItemsInner (tokens : List Token) : Prop :=
  Clear tokens → ∀ node ∈ (items tokens).value.flatMap Node.nodes, node.IsInner

def FormInner (tokens : List Token) : Prop :=
  ∀ (l : Token) (line : Int), l.kind = .openParen → Clear (l :: tokens) →
    ∀ node ∈ (form line tokens).value.nodes, node.IsInner

theorem itemsInner_stop (h : AtEnd tokens) : ItemsInner tokens := by
  intro _
  rw [(items_atEnd h).1]
  simp

theorem itemsInner_atom (ht : ¬ t.IsParen) (ih : ItemsInner rest) : ItemsInner (t :: rest) := by
  intro hclear
  have hatom := isInner_atom (hclear.told t List.mem_cons_self)
  rw [(items_atom ht).1, List.flatMap_cons]
  refine List.forall_mem_append.2 ⟨isInner_nodes hatom ?_, ih hclear.tail⟩
  simp

theorem itemsInner_open (ht : t.kind = .openParen) (hform : FormInner rest)
    (ih : ItemsInner (form t.line rest).rest) : ItemsInner (t :: rest) := by
  intro hclear
  rw [(items_open ht).1, List.flatMap_cons]
  exact List.forall_mem_append.2 ⟨hform t t.line ht hclear,
    ih (hclear.tail.suffix (rest_form_suffix t.line rest))⟩

theorem formInner_empty (h : AtEnd tokens) : FormInner tokens := by
  intro l line _ _
  have hleaf : (form line tokens).value = .leaf .emptyExpression "" line := by
    match tokens, h with
    | [], _ => exact form_nil.1
    | r :: rest, h => exact (form_close (atEnd_cons.1 h)).1
  rw [hleaf]
  exact isInner_nodes (isInner_of_empty (by simp) rfl) (by simp)

theorem formInner_call (hc : t.kind ≠ .closeParen) (he : t.kind ≠ .equals)
    (ih : ItemsInner (t :: rest)) : FormInner (t :: rest) := by
  intro l line _ hclear
  rw [(form_call hc he).1]
  exact isInner_nodes (isInner_of_empty (by simp) (by simp)) (by simpa using ih hclear.tail)

theorem formInner_plain (he : t.kind = .equals) (h : ∀ u ∈ rest.head?, u.kind ≠ .openParen)
    (ih : ItemsInner rest) : FormInner (t :: rest) := by
  intro l line _ hclear
  rw [(form_plain he h).1]
  exact isInner_nodes (isInner_of_empty (by simp) (by simp)) (by simpa using ih hclear.tail.tail)

theorem formInner_nameless {o : Token} (he : t.kind = .equals) (ho : o.kind = .openParen)
    (h : AtEnd rest) : FormInner (t :: o :: rest) := by
  intro l line _ _
  rw [(form_nameless he ho h).1]
  exact isInner_nodes (isInner_of_empty (by simp) (by simp)) (by simp)

theorem formInner_named {o name : Token} (he : t.kind = .equals) (ho : o.kind = .openParen)
    (hn : name.kind ≠ .closeParen) (hparameters : ItemsInner rest)
    (hbody : ItemsInner (items rest).rest.tail) : FormInner (t :: o :: name :: rest) := by
  intro l line _ hclear
  have hname := hclear.tail.name_ne_comment he ho
  have hrest := hclear.tail.tail.tail.tail
  have hsignature : (((Node.leaf .signature name.text name.line).addChildren
      (items rest).value).signatureClosedAt (items rest).rest.head?).IsInner := by
    have htold := hclear.told name (by simp)
    refine ⟨by simp, ?_⟩
    simp [Node.isRemark, htold, hname]
  have hparameters' := isInner_nodes hsignature (by simpa using hparameters hrest)
  have hbody' := hbody (hrest.suffix ((List.tail_suffix _).trans (rest_items_suffix rest)))
  rw [(form_named he ho hn).1]
  refine isInner_nodes (isInner_of_empty (by simp) (by simp)) ?_
  simp only [Node.children_closedAt, Node.children_addChildren, Node.children_leaf,
    List.nil_append, List.flatMap_cons]
  exact List.forall_mem_append.2 ⟨hparameters', hbody'⟩

theorem inner_all : (∀ tokens, ItemsInner tokens) ∧ ∀ tokens, FormInner tokens :=
  Parser.induction (fun _ => itemsInner_stop) (fun _ _ => itemsInner_atom)
    (fun _ _ => itemsInner_open) (fun _ => formInner_empty) (fun _ _ => formInner_call)
    (fun _ _ => formInner_plain) (fun _ _ _ => formInner_nameless)
    (fun _ _ _ _ => formInner_named)

end Parser

def Node.IsOuter (node : Node) : Prop :=
  node.kind = .execution → ∀ body ∈ node.children.head?,
    ¬ body.isRemark ∧ ∀ inner ∈ body.nodes, inner.IsInner

theorem Node.IsInner.isOuter {node : Node} (h : node.IsInner) : node.IsOuter :=
  fun hkind => absurd hkind h.kind

namespace Parser

theorem isOuter_execution {t : Token} {rest : List Token} (hclear : Clear rest) :
    ∀ node ∈ (execution t rest).value.nodes, node.IsOuter := by
  rw [Node.nodes_eq]
  rcases open_or_not rest with hopen | ⟨u, later, rfl, hu⟩
  · rw [(execution_alone hopen).1]
    simp [Node.IsOuter]
  · have hinner := inner_all.2 later u u.line hu hclear
    have hremark := not_isRemark_form u.line later
    rw [(execution_open hu).1]
    refine List.forall_mem_cons.2 ⟨?_, ?_⟩
    · intro _ body hbody
      obtain rfl : (form u.line later).value = body := by simpa using hbody
      exact ⟨hremark, hinner⟩
    · simpa using fun node hnode => (hinner node hnode).isOuter

theorem outer_topLevels {tokens : List Token} (hclear : Clear tokens) :
    ∀ node ∈ (topLevels tokens).flatMap Node.nodes, node.IsOuter := by
  induction tokens using topLevels_induction with
  | nil => simp [topLevels]
  | step t rest ih =>
    have hlater := ih (hclear.tail.suffix (rest_topLevel_suffix t rest))
    rw [topLevels_cons, List.flatMap_append]
    refine List.forall_mem_append.2 ⟨?_, hlater⟩
    by_cases ho : t.kind = .openParen
    · rw [(topLevel_open ho).1]
      simpa using fun node hnode => (inner_all.2 rest t t.line ho hclear node hnode).isOuter
    by_cases he : t.kind = .execute
    · rw [(topLevel_execute he).1]
      simpa using isOuter_execution hclear.tail
    by_cases hc : t.kind = .comment
    · rw [(topLevel_comment hc).1]
      have hnodes : (comment t).nodes = [comment t] := by
        rw [Node.nodes_eq]
        rfl
      have hkind : (comment t).kind ≠ .execution := by simp [comment]
      have houter : (comment t).IsOuter := fun h => absurd h hkind
      simpa [hnodes] using houter
    · rw [(topLevel_other hc he ho).1]
      simp

end Parser

namespace Node

theorem kind_bare (node : Node) : node.bare.kind = node.kind := by rw [bare_eq]

theorem value_bare (node : Node) : node.bare.value = node.value := by rw [bare_eq]

theorem children_bare (node : Node) : node.bare.children = bareAll node.children := by
  rw [bare_eq]

theorem bareAll_of_none {nodes : List Node} (h : ∀ node ∈ nodes, ¬ node.isRemark) :
    bareAll nodes = nodes.map bare := by
  rw [bareAll_eq, List.filter_eq_self.2 fun node hnode => by simpa using h node hnode]

theorem head?_brief_bare {body : Node} (hbody : body.IsInner) (hremark : ¬ body.isRemark)
    (hchildren : ∀ child ∈ body.children, child.IsInner) :
    body.bare.brief.toList.head? ≠ some ';' := by
  match hparts : body.bare.children with
  | [] =>
    have hvalue : body.value.toList.head? ≠ some ';' := fun h => hremark (hbody.remark.2 h)
    rw [brief, hparts]
    simp only [value_bare]
    split
    · decide
    · exact hvalue
  | head :: arguments =>
    have hhead : head ∈ bareAll body.children := by
      rw [← children_bare, hparts]
      exact List.mem_cons_self
    rw [bareAll_eq] at hhead
    obtain ⟨child, hchild, rfl⟩ := List.mem_map.1 hhead
    obtain ⟨hmem, hplain⟩ := List.mem_filter.1 hchild
    rw [brief_cons hparts, Ne, head?_phrase, value_bare, ← (hchildren child hmem).remark]
    simpa using hplain

theorem brief_bare_of_none {body : Node} (h : ∀ child ∈ body.children, ¬ child.isRemark) :
    body.bare.brief = body.brief := by
  have hbare : body.bare.children = body.children.map bare := by
    rw [children_bare, bareAll_of_none h]
  match hparts : body.children with
  | [] => simp [brief, hbare, hparts, value_bare]
  | head :: arguments =>
    rw [hparts, List.map_cons] at hbare
    rw [brief_cons hbare, brief_cons hparts, value_bare, List.length_map]

theorem brief_bare_iff {body : Node} (hbody : body.IsInner) (hremark : ¬ body.isRemark)
    (hchildren : ∀ child ∈ body.children, child.IsInner) :
    body.bare.brief = body.brief ↔ ∀ child ∈ body.children, ¬ child.isRemark := by
  refine ⟨fun hbrief => ?_, brief_bare_of_none⟩
  have hstart := head?_brief_bare hbody hremark hchildren
  match hparts : body.children with
  | [] => simp
  | head :: arguments =>
    rw [hparts] at hchildren
    obtain ⟨hfirst, -⟩ := List.forall_mem_cons.1 hchildren
    have hhead : ¬ head.isRemark := by
      rwa [hbrief, brief_cons hparts, Ne, head?_phrase, ← hfirst.remark] at hstart
    have hbare : body.bare.children = head.bare :: bareAll arguments := by
      rw [children_bare, hparts, bareAll, if_neg hhead]
    rw [brief_cons hbare, brief_cons hparts, value_bare] at hbrief
    have hlength := phrase_inj hbrief
    rw [bareAll_eq, List.length_map, List.length_filter_eq_length_iff] at hlength
    exact List.forall_mem_cons.2 ⟨hhead, fun child hchild => by simpa using hlength child hchild⟩

theorem execution?_bare_iff {node : Node} (h : node.IsOuter) :
    node.bare.execution? = node.execution? ↔ (node.kind = .execution →
      ∀ body ∈ node.children.head?, ∀ child ∈ body.children, ¬ child.isRemark) := by
  by_cases hkind : node.kind = .execution
  · match hchildren : node.children with
    | [] => simp [execution?, kind_bare, hkind, children_bare, hchildren, bareAll]
    | body :: later =>
      obtain ⟨hremark, hinner⟩ := h hkind body (by rw [hchildren]; rfl)
      have hparts : ∀ child ∈ body.children, child.IsInner := by
        intro child hchild
        apply hinner
        rw [nodes_eq body]
        refine List.mem_cons_of_mem _ (List.mem_flatMap.2 ⟨child, hchild, ?_⟩)
        rw [nodes_eq child]
        exact List.mem_cons_self
      have hbody : body.IsInner := hinner body (by rw [nodes_eq]; exact List.mem_cons_self)
      have hbare : node.bare.children = body.bare :: bareAll later := by
        rw [children_bare, hchildren, bareAll, if_neg hremark]
      have hline : node.bare.line = node.line := by rw [bare_eq]
      have hbrief := brief_bare_iff hbody hremark hparts
      simpa [execution?, kind_bare, hkind, hbare, hchildren, hline] using hbrief
  · have hkind' : node.bare.kind ≠ .execution := by rwa [kind_bare]
    simp [execution?_of_ne hkind, execution?_of_ne hkind', hkind]

theorem isSome_execution?_bare {node : Node} (h : node.IsOuter) :
    node.bare.execution?.isSome = node.execution?.isSome := by
  by_cases hkind : node.kind = .execution
  · match hchildren : node.children with
    | [] => simp [execution?, kind_bare, hkind, children_bare, hchildren, bareAll]
    | body :: later =>
      obtain ⟨hremark, -⟩ := h hkind body (by rw [hchildren]; rfl)
      simp [execution?, kind_bare, hkind, children_bare, hchildren, bareAll, hremark]
  · have hkind' : node.bare.kind ≠ .execution := by rwa [kind_bare]
    rw [execution?_of_ne hkind, execution?_of_ne hkind']

theorem kind_of_isRemark {node : Node} (h : node.isRemark) :
    node.kind = .comment ∨ node.kind = .unknown := by
  have hparts := h
  simp only [isRemark, Bool.and_eq_true, Bool.or_eq_true, decide_eq_true_eq] at hparts
  exact hparts.1.imp id And.left

theorem nodes_of_isRemark {node : Node} (h : node.isRemark) : node.nodes = [node] := by
  have hchildren : node.children = [] := by
    simp only [isRemark, Bool.and_eq_true, List.isEmpty_iff] at h
    exact h.2
  rw [nodes_eq, hchildren]
  rfl

mutual

theorem nodes_bare : ∀ node : Node, ¬ node.isRemark →
    node.bare.nodes = (node.nodes.filter fun node => !node.isRemark).map bare
  | ⟨kind, value, line, lastLine, firstRow, lastRow, children⟩ => by
    intro h
    have ih := flatMap_nodes_bareAll children
    rw [nodes_eq, nodes_eq, children_bare, ih, List.filter_cons_of_pos (by simpa using h),
      List.map_cons]

theorem flatMap_nodes_bareAll : ∀ all : List Node, (bareAll all).flatMap nodes =
    ((all.flatMap nodes).filter fun node => !node.isRemark).map bare
  | [] => rfl
  | node :: all => by
    have ih := flatMap_nodes_bareAll all
    rw [bareAll, List.flatMap_cons, List.filter_append, List.map_append, ← ih]
    split
    · next h => simp [nodes_of_isRemark h, h]
    · next h => rw [List.flatMap_cons, nodes_bare node h]

end

theorem filterMap_bare {α : Type} {f : Node → Option α}
    (h : ∀ node : Node, node.isRemark → f node.bare = none) (all : List Node) :
    ((all.filter fun node => !node.isRemark).map bare).filterMap f =
      all.filterMap fun node => f node.bare := by
  induction all with
  | nil => rfl
  | cons node all ih =>
    by_cases hremark : node.isRemark
    · rw [List.filter_cons_of_neg (by simpa using hremark), ih]
      exact (List.filterMap_cons_none (f := fun node : Node => f node.bare) (h node hremark)).symm
    · rw [List.filter_cons_of_pos (by simpa using hremark), List.map_cons, List.filterMap_cons,
        List.filterMap_cons, ih]

theorem valuesOf_bare {kind : NodeKind} (hcomment : kind ≠ .comment) (hunknown : kind ≠ .unknown)
    (all : List Node) :
    valuesOf kind ((all.filter fun node => !node.isRemark).map bare) = valuesOf kind all := by
  induction all with
  | nil => rfl
  | cons node all ih =>
    rw [valuesOf, valuesOf] at ih ⊢
    by_cases hremark : node.isRemark
    · have hne : node.kind ≠ kind := by
        rintro rfl
        exact (kind_of_isRemark hremark).elim hcomment hunknown
      rw [List.filter_cons_of_neg (by simpa using hremark), ih,
        List.filter_cons_of_neg (by simpa using hne)]
    · rw [List.filter_cons_of_pos (by simpa using hremark), List.map_cons, List.filter_cons,
        List.filter_cons, kind_bare]
      split
      · rw [List.map_cons, List.map_cons, ih, value_bare]
      · exact ih

theorem function?_bare (node : Node) : node.bare.function? = node.function? := by
  have hfind : node.bare.children.find? (fun child => child.kind = .signature) =
      (node.children.find? fun child => child.kind = .signature).map bare := by
    rw [children_bare]
    induction node.children with
    | nil => rfl
    | cons child children ih =>
      rw [bareAll, List.find?_cons]
      split
      · next hremark =>
        have hne : child.kind ≠ .signature := by
          obtain hkind | hkind := kind_of_isRemark hremark <;> simp [hkind]
        rw [ih]
        simp [hne]
      · rw [List.find?_cons, kind_bare, ih]
        split <;> rfl
  have hlines : node.bare.line = node.line ∧ node.bare.lastLine = node.lastLine := by
    rw [bare_eq]
    exact ⟨rfl, rfl⟩
  rw [function?, function?, kind_bare, hfind, Option.map_map, hlines.1, hlines.2]
  split
  · refine Option.map_congr fun signature _ => ?_
    have hkind : NodeKind.variable ≠ .comment ∧ NodeKind.variable ≠ .unknown := by decide
    have hparameters := valuesOf_bare hkind.1 hkind.2 signature.children
    rw [← bareAll_eq, valuesOf, valuesOf] at hparameters
    rw [Function.comp_apply, value_bare, children_bare, hparameters]
  · rfl

theorem fact?_bare_of_none {node : Node} (h : ∀ child ∈ node.children, ¬ child.isRemark) :
    node.bare.fact? = node.fact? := by
  have hbare : node.bare.children = node.children.map bare := by
    rw [children_bare, bareAll_of_none h]
  have hbrief := brief_bare_of_none h
  have hline : node.bare.line = node.line := by rw [bare_eq]
  unfold fact?
  rw [kind_bare, hbare, hbrief, hline]
  cases node.kind with
  | expression =>
    match node.children with
    | [subject, _, _] => simp [kind_bare, value_bare]
    | [] | [_] | [_, _] | _ :: _ :: _ :: _ :: _ => rfl
  | _ => rfl

theorem countP_isPlainExpression (all : List Node) :
    all.countP isPlainExpression + (all.filterMap fact?).length =
      all.countP fun node => node.kind = .expression := by
  induction all with
  | nil => rfl
  | cons node all ih =>
    rw [List.countP_cons, List.countP_cons]
    by_cases hkind : node.kind = .expression
    · cases hfact : node.fact? with
      | none =>
        rw [List.filterMap_cons_none hfact]
        simpa [isPlainExpression, hkind, hfact, Nat.add_right_comm] using ih
      | some fact =>
        rw [List.filterMap_cons_some hfact, List.length_cons]
        simpa [isPlainExpression, hkind, hfact, ← Nat.add_assoc] using ih
    · rw [List.filterMap_cons_none (fact?_of_ne hkind)]
      simpa [isPlainExpression, hkind] using ih

theorem function?_rowless (node : Node) : node.rowless.function? = node.function? := by
  have hlines : Function.mapLines id = id := by
    funext f
    rfl
  rw [rowless, function?_mapPlaces, hlines, Option.map_id_fun, id]

theorem execution?_rowless (node : Node) : node.rowless.execution? = node.execution? := by
  have hlines : Execution.mapLine id = id := by
    funext e
    rfl
  rw [rowless, execution?_mapPlaces, hlines, Option.map_id_fun, id]

theorem fact?_rowless (node : Node) : node.rowless.fact? = node.fact? := by
  have hlines : Fact.mapLine id = id := by
    funext f
    rfl
  rw [rowless, fact?_mapPlaces, hlines, Option.map_id_fun, id]

theorem filterMap_rowless {α : Type} {f : Node → Option α}
    (h : ∀ node : Node, f node.rowless = f node) (all : List Node) :
    (all.map rowless).filterMap f = all.filterMap f := by
  rw [List.filterMap_map]
  exact List.filterMap_congr fun node _ => h node

section
variable {all all' : List Node} (h : all'.map rowless = bareAll all)
include h

theorem flatMap_nodes_rowless : (all'.flatMap nodes).map rowless =
    ((all.flatMap nodes).filter fun node => !node.isRemark).map bare := by
  rw [← flatMap_nodes_bareAll, ← h]
  exact (flatMap_nodes_mapPlaces _ _ all').symm

theorem filterMap_of_bare {α : Type} {f : Node → Option α}
    (hrows : ∀ node : Node, f node.rowless = f node)
    (hremark : ∀ node : Node, node.isRemark → f node.bare = none) :
    (all'.flatMap nodes).filterMap f = (all.flatMap nodes).filterMap fun node => f node.bare := by
  rw [← filterMap_rowless hrows, flatMap_nodes_rowless h, filterMap_bare hremark]

theorem valuesOf_of_bare {kind : NodeKind} (hcomment : kind ≠ .comment)
    (hunknown : kind ≠ .unknown) :
    valuesOf kind (all'.flatMap nodes) = valuesOf kind (all.flatMap nodes) := by
  rw [← valuesOf_bare hcomment hunknown (all.flatMap nodes), ← flatMap_nodes_rowless h]
  exact (valuesOf_mapPlaces _ _ kind _).symm

theorem countP_of_bare : (all'.flatMap nodes).countP (fun node => node.kind = .expression) =
    (all.flatMap nodes).countP fun node => node.kind = .expression := by
  have hkind : NodeKind.expression ≠ .comment ∧ NodeKind.expression ≠ .unknown := by decide
  have hvalues := valuesOf_of_bare h hkind.1 hkind.2
  have hlengths := congrArg List.length hvalues
  simpa [valuesOf, List.countP_eq_length_filter] using hlengths

end

end Node

theorem filterMap_eq_iff {α β : Type} {f g : α → Option β} {all : List α}
    (h : ∀ a ∈ all, (f a).isSome = (g a).isSome) :
    all.filterMap f = all.filterMap g ↔ ∀ a ∈ all, f a = g a := by
  refine ⟨fun heq => ?_, List.filterMap_congr⟩
  induction all with
  | nil => simp
  | cons a all ih =>
    obtain ⟨hfirst, hrest⟩ := List.forall_mem_cons.1 h
    cases hf : f a with
    | none =>
      have hg : g a = none := by simpa [hf] using hfirst.symm
      rw [List.filterMap_cons_none hf, List.filterMap_cons_none hg] at heq
      exact List.forall_mem_cons.2 ⟨hf.trans hg.symm, ih hrest heq⟩
    | some b =>
      obtain ⟨c, hg⟩ : ∃ c, g a = some c := by
        rw [hf] at hfirst
        exact Option.isSome_iff_exists.1 hfirst.symm
      rw [List.filterMap_cons_some hf, List.filterMap_cons_some hg] at heq
      obtain ⟨rfl, hlater⟩ := List.cons.inj heq
      exact List.forall_mem_cons.2 ⟨hf.trans hg.symm, ih hrest hlater⟩

def Node.RunsBare (node : Node) : Prop :=
  node.kind = .execution → ∀ body ∈ node.children.head?, ∀ child ∈ body.children, ¬ child.isRemark

def Node.FormsBare (root : Node) : Prop :=
  ∀ top ∈ root.children, ∀ node ∈ top.nodes, ∀ child ∈ node.children, ¬ child.isRemark

theorem Definitions.eq_of_fields {d d' : Definitions} (hfunctions : d.functions = d'.functions)
    (hexecutions : d.executions = d'.executions) (hfacts : d.facts = d'.facts)
    (hcount : d.expressionCount = d'.expressionCount)
    (hvariables : d.variableNames = d'.variableNames) (hspaces : d.spaces = d'.spaces) :
    d = d' := by
  cases d
  cases d'
  subst hfunctions hexecutions hfacts hcount hvariables hspaces
  rfl

namespace Node

variable {tree tree' : Node} (hkind : tree.kind = .program) (hkind' : tree'.kind = .program)
  (hbare : tree'.children.map rowless = bareAll tree.children)
include hkind hkind' hbare

theorem definitions_of_bare :
    tree'.definitions.functions = tree.definitions.functions ∧
      tree'.definitions.executions = tree.nodes.filterMap (fun node => node.bare.execution?) ∧
      tree'.definitions.facts = tree.nodes.filterMap (fun node => node.bare.fact?) ∧
      tree'.definitions.expressionCount + tree'.definitions.facts.length =
        tree.definitions.expressionCount + tree.definitions.facts.length ∧
      tree'.definitions.variableNames = tree.definitions.variableNames ∧
      tree'.definitions.spaces = tree.definitions.spaces := by
  obtain ⟨hfunctions, -, hfacts, hcount, hvariables, hspaces⟩ := definitions_program hkind
  obtain ⟨hfunctions', hexecutions', hfacts', hcount', hvariables', hspaces'⟩ :=
    definitions_program hkind'
  have hroot : tree.bare.execution? = none ∧ tree.bare.fact? = none :=
    ⟨execution?_of_ne (by simp [kind_bare, hkind]), fact?_of_ne (by simp [kind_bare, hkind])⟩
  have hnone (kind : NodeKind) (hcomment : kind ≠ .comment) (hunknown : kind ≠ .unknown)
      (node : Node) (h : node.isRemark) : node.bare.kind ≠ kind := by
    rintro rfl
    rw [kind_bare] at hcomment hunknown
    exact (kind_of_isRemark h).elim hcomment hunknown
  refine ⟨?_, ?_, ?_, ?_, ?_, ?_⟩
  · rw [hfunctions, hfunctions', filterMap_of_bare hbare function?_rowless fun node h =>
      function?_of_ne (hnone .definition (by simp) (by simp) node h)]
    exact List.filterMap_congr fun node _ => function?_bare node
  · rw [hexecutions', filterMap_of_bare hbare execution?_rowless fun node h =>
      execution?_of_ne (hnone .execution (by simp) (by simp) node h), nodes_eq tree]
    exact (List.filterMap_cons_none (f := fun node : Node => node.bare.execution?) hroot.1).symm
  · rw [hfacts', filterMap_of_bare hbare fact?_rowless fun node h =>
      fact?_of_ne (hnone .expression (by simp) (by simp) node h), nodes_eq tree]
    exact (List.filterMap_cons_none (f := fun node : Node => node.bare.fact?) hroot.2).symm
  · rw [hcount, hcount', hfacts, hfacts', countP_isPlainExpression, countP_isPlainExpression,
      countP_of_bare hbare]
  · rw [hvariables, hvariables', valuesOf_of_bare hbare (by simp) (by simp)]
  · rw [hspaces, hspaces', valuesOf_of_bare hbare (by simp) (by simp)]

theorem definitions_bare_iff (houter : ∀ node ∈ tree.nodes, node.IsOuter) :
    tree'.definitions = tree.definitions ↔ (∀ node ∈ tree.nodes, node.RunsBare) ∧
      tree.nodes.filterMap fact? = tree.nodes.filterMap fun node => node.bare.fact? := by
  obtain ⟨hfunctions, hexecutions, hfacts, hcount, hvariables, hspaces⟩ :=
    definitions_of_bare hkind hkind' hbare
  have hruns : tree'.definitions.executions = tree.definitions.executions ↔
      ∀ node ∈ tree.nodes, node.RunsBare := by
    rw [hexecutions, definitions, filterMap_eq_iff fun node hnode =>
      isSome_execution?_bare (houter node hnode)]
    exact forall₂_congr fun node hnode => execution?_bare_iff (houter node hnode)
  constructor
  · intro h
    refine ⟨hruns.1 (congrArg Definitions.executions h), ?_⟩
    rw [← hfacts]
    exact (congrArg Definitions.facts h).symm
  · rintro ⟨hbody, hsame⟩
    have hfacts' : tree'.definitions.facts = tree.definitions.facts := hfacts.trans hsame.symm
    rw [hfacts'] at hcount
    exact Definitions.eq_of_fields hfunctions (hruns.2 hbody) hfacts' (by omega) hvariables hspaces

end Node

namespace Node

mutual

theorem mem_nodes_of_mem_children {node child : Node} (h : child ∈ node.children) :
    ∀ top : Node, node ∈ top.nodes → child ∈ top.nodes
  | ⟨kind, value, line, lastLine, firstRow, lastRow, children⟩ => by
    have ih := mem_flatMap_of_mem_children h children
    intro hnode
    rw [nodes_eq] at hnode ⊢
    refine List.mem_cons_of_mem _ ?_
    rcases List.mem_cons.1 hnode with rfl | hbelow
    · refine List.mem_flatMap.2 ⟨child, h, ?_⟩
      rw [nodes_eq]
      exact List.mem_cons_self
    · exact ih hbelow

theorem mem_flatMap_of_mem_children {node child : Node} (h : child ∈ node.children) :
    ∀ all : List Node, node ∈ all.flatMap nodes → child ∈ all.flatMap nodes
  | [] => by simp
  | top :: all => by
    have ih := mem_nodes_of_mem_children h top
    have ih' := mem_flatMap_of_mem_children h all
    rw [List.flatMap_cons, List.mem_append, List.mem_append]
    exact Or.imp ih ih'

end

theorem FormsBare.inert {root : Node} (h : root.FormsBare) (hkind : root.kind = .program) :
    (∀ node ∈ root.nodes, node.RunsBare) ∧
      root.nodes.filterMap fact? = root.nodes.filterMap fun node => node.bare.fact? := by
  have hbelow : ∀ node ∈ root.children.flatMap nodes, ∀ child ∈ node.children,
      ¬ child.isRemark := by
    intro node hnode
    obtain ⟨top, htop, hmem⟩ := List.mem_flatMap.1 hnode
    exact h top htop node hmem
  have hroot : root.fact? = none ∧ root.bare.fact? = none :=
    ⟨fact?_of_ne (by simp [hkind]), fact?_of_ne (by simp [kind_bare, hkind])⟩
  rw [nodes_eq]
  refine ⟨List.forall_mem_cons.2 ⟨fun hrun => ?_, fun node hnode _ body hbody => ?_⟩, ?_⟩
  · rw [hkind] at hrun
    cases hrun
  · exact hbelow body (mem_flatMap_of_mem_children (List.mem_of_mem_head? hbody) _ hnode)
  · apply List.filterMap_congr
    refine List.forall_mem_cons.2 ⟨hroot.1.trans hroot.2.symm, fun node hnode => ?_⟩
    exact (fact?_bare_of_none (hbelow node hnode)).symm

end Node

/-- Without its comments a program has the tree without remarks, and the same functions, variables
and spaces. The rest of its report stays the same just if no form that is run has a remark among its
parts and the forms state the same facts with their remarks as without; above all, if no comment
stands inside of a form. -/
theorem comments_inert_iff (s : String) (hquotes : QuotesEnclosed s)
    (hcloses : ClosesAll (tokenize s)) (hheads : headsClear (tokenize s) = true) :
    let tree := Node.ofText s
    let tree' := Node.ofText (withoutComments s)
    tree'.children.map Node.rowless = Node.bareAll tree.children ∧
      tree'.definitions.functions = tree.definitions.functions ∧
      tree'.definitions.variableNames = tree.definitions.variableNames ∧
      tree'.definitions.spaces = tree.definitions.spaces ∧
      (tree'.definitions = tree.definitions ↔
        (∀ node ∈ tree.nodes, node.RunsBare) ∧
          tree.nodes.filterMap Node.fact? = tree.nodes.filterMap fun node => node.bare.fact?) ∧
      (tree.FormsBare → tree'.definitions = tree.definitions) := by
  intro tree tree'
  have hkind := Node.kind_ofText
  have hclear : Clear (tokenize s) := ⟨hheads, fun t => head_eq_semicolon_iff⟩
  have hbare : tree'.children.map Node.rowless = Node.bareAll tree.children := by
    rw [Node.children_ofText, Node.children_ofText, tokenize_withoutComments hquotes,
      Parser.topLevels_uncommented hclear hcloses]
  have houter : ∀ node ∈ tree.nodes, node.IsOuter := by
    rw [Node.nodes_eq, Node.children_ofText]
    refine List.forall_mem_cons.2 ⟨fun h => ?_, Parser.outer_topLevels hclear⟩
    rw [hkind s] at h
    cases h
  have hiff := Node.definitions_bare_iff (hkind s) (hkind _) hbare houter
  obtain ⟨hfunctions, -, -, -, hvariables, hspaces⟩ :=
    Node.definitions_of_bare (hkind s) (hkind _) hbare
  exact ⟨hbare, hfunctions, hvariables, hspaces, hiff,
    fun hforms => hiff.2 (hforms.inert (hkind s))⟩

def notedFact : String := "(A b ; note\n C)"

theorem notedFact_not_inert :
    QuotesEnclosed notedFact ∧ ClosesAll (tokenize notedFact) ∧
      headsClear (tokenize notedFact) = true ∧ withoutComments notedFact = "(A b \n C)" ∧
      (Node.ofText notedFact).definitions.facts = [] ∧
      (Node.ofText (withoutComments notedFact)).definitions.facts = [⟨1, "A(2 args)", "A"⟩] ∧
      (Node.ofText (withoutComments notedFact)).definitions ≠
        (Node.ofText notedFact).definitions := by
  have hquotes : QuotesEnclosed notedFact := by decide +kernel
  have hbalanced : Balanced (tokenize notedFact) := by decide +kernel
  have hheads : headsClear (tokenize notedFact) = true := by decide +kernel
  have hfacts : (Node.ofText notedFact).definitions.facts = [] := by decide +kernel
  have hfacts' : (Node.ofText notedFact).nodes.filterMap (fun node => node.bare.fact?) =
      [⟨1, "A(2 args)", "A"⟩] := by decide +kernel
  obtain ⟨-, -, -, -, hiff, -⟩ := comments_inert_iff notedFact hquotes hbalanced.closesAll hheads
  refine ⟨hquotes, hbalanced.closesAll, hheads, by decide +kernel, hfacts, by decide +kernel, ?_⟩
  intro hsame
  have hlost := (hiff.1 hsame).2
  rw [hfacts'] at hlost
  cases hfacts.symm.trans hlost

end CodeAtlas.Metta
