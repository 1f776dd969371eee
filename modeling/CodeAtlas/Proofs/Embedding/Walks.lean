import CodeAtlas.Embedding.Model
import Mathlib.Data.List.Chain
import Mathlib.Data.List.Count
import Mathlib.Data.List.Nodup
import Mathlib.Data.List.Perm.Basic
import Mathlib.Data.Option.Basic

/-! Random walks keep to the edges of their graph, however chance decides. A walk stops short of its
length only where no edge leads on, and every round starts one walk at each node. -/

namespace CodeAtlas

namespace Graph.Directed

variable {g : Directed}

structure Valid (g : Directed) : Prop where
  nodup : g.nodes.Nodup
  ends : ∀ source target, (source, target) ∈ g.edges → source ∈ g.nodes ∧ target ∈ g.nodes

theorem valid_empty : empty.Valid := ⟨List.nodup_nil, nofun⟩

theorem mem_addNode {node other : String} :
    other ∈ (g.addNode node).nodes ↔ other ∈ g.nodes ∨ other = node := by
  unfold addNode
  split
  · next h =>
    refine ⟨.inl, fun hmem => hmem.elim id ?_⟩
    rintro rfl
    exact List.contains_iff_mem.1 h
  · rw [List.mem_append, List.mem_singleton]

theorem edges_addNode (g : Directed) (node : String) : (g.addNode node).edges = g.edges := by
  unfold addNode
  split <;> rfl

theorem Valid.addNode (h : g.Valid) (node : String) : (g.addNode node).Valid := by
  refine ⟨?_, fun source target hedge => ?_⟩
  · unfold Directed.addNode
    split
    · exact h.nodup
    · next hnew =>
      rw [List.contains_iff_mem] at hnew
      exact List.nodup_append.2 ⟨h.nodup, List.pairwise_singleton _ node, fun a ha b hb heq =>
        hnew (List.mem_singleton.1 hb ▸ heq ▸ ha)⟩
  · rw [edges_addNode] at hedge
    obtain ⟨hsource, htarget⟩ := h.ends source target hedge
    exact ⟨mem_addNode.2 (.inl hsource), mem_addNode.2 (.inl htarget)⟩

theorem Valid.addEdge (h : g.Valid) (source target : String) : (g.addEdge source target).Valid := by
  have hnodes := (h.addNode source).addNode target
  unfold Directed.addEdge
  dsimp only
  split
  · exact hnodes
  · refine ⟨hnodes.nodup, fun a b hedge => ?_⟩
    rcases List.mem_append.1 hedge with hold | hnew
    · exact hnodes.ends a b hold
    · obtain ⟨rfl, rfl⟩ := Prod.mk.inj (List.mem_singleton.1 hnew)
      exact ⟨mem_addNode.2 (.inl (mem_addNode.2 (.inr rfl))), mem_addNode.2 (.inr rfl)⟩

theorem mem_successors {node next : String} :
    next ∈ g.successors node ↔ (node, next) ∈ g.edges := by
  simp [successors]

/-- A walk goes along edges from its start for so many steps, and for fewer only if it comes to a
node that no edge leaves. -/
structure IsWalk (g : Directed) (start : String) (steps : Nat) (walk : List String) : Prop where
  starts : walk.head? = some start
  joined : walk.IsChain fun source target => (source, target) ∈ g.edges
  length_le : walk.length ≤ steps + 1
  ends : walk.length < steps + 1 → ∀ last ∈ walk.getLast?, ∀ next, (last, next) ∉ g.edges

theorem isWalk_zero (g : Directed) (start : String) : g.IsWalk start 0 [start] :=
  ⟨rfl, .singleton start, Nat.le_refl 1, fun h => absurd h (Nat.lt_irrefl 1)⟩

theorem isWalk_stuck {start : String} (h : g.successors start = []) (steps : Nat) :
    g.IsWalk start steps [start] := by
  refine ⟨rfl, .singleton start, Nat.le_add_left 1 steps, fun _ last hlast next hedge => ?_⟩
  obtain rfl : start = last := Option.some.inj hlast
  exact List.not_mem_nil (h ▸ mem_successors.2 hedge)

theorem IsWalk.cons {start next : String} {steps : Nat} {walk : List String}
    (h : g.IsWalk next steps walk) (hedge : (start, next) ∈ g.edges) :
    g.IsWalk start (steps + 1) (start :: walk) := by
  obtain ⟨rest, rfl⟩ := List.head?_eq_some_iff.1 h.starts
  refine ⟨rfl, .cons_cons hedge h.joined, Nat.succ_le_succ h.length_le, fun hshort => ?_⟩
  rw [List.getLast?_cons_cons]
  exact h.ends (Nat.lt_of_succ_lt_succ hshort)

theorem Valid.mem_of_isChain (hg : g.Valid) {start : String} {rest : List String}
    (hstart : start ∈ g.nodes)
    (h : (start :: rest).IsChain fun source target => (source, target) ∈ g.edges) :
    ∀ node ∈ start :: rest, node ∈ g.nodes := by
  induction rest generalizing start with
  | nil => simpa using hstart
  | cons next rest ih =>
    obtain ⟨hedge, hrest⟩ := List.isChain_cons_cons.1 h
    exact List.forall_mem_cons.2 ⟨hstart, ih (hg.ends start next hedge).2 hrest⟩

end Graph.Directed

namespace Embedding

open CodeAtlas.Graph (Directed)

variable {σ : Type} {chance : Chance σ}

/-- Shuffling only changes the order, and what is chosen is one of the things to choose from. -/
structure Chance.Fair (chance : Chance σ) : Prop where
  shuffle : ∀ s nodes, (chance.shuffle s nodes).1.Perm nodes
  choose : ∀ s first others, (chance.choose s first others).1 ∈ first :: others

theorem isWalk_stroll (h : chance.Fair) (g : Directed) (steps : Nat) (node : String) (s : σ) :
    g.IsWalk node steps (node :: (stroll chance g steps node s).1) := by
  induction steps generalizing node s with
  | zero => exact g.isWalk_zero node
  | succ steps ih =>
    rw [stroll]
    split
    · next hnone => exact Directed.isWalk_stuck hnone (steps + 1)
    · next first others hsome =>
      refine (ih _ _).cons (Directed.mem_successors.1 ?_)
      rw [hsome]
      exact h.choose s first others

theorem map_head?_walkEach (chance : Chance σ) (g : Directed) (steps : Nat) (nodes : List String)
    (s : σ) : (walkEach chance g steps nodes s).1.map List.head? = nodes.map some := by
  induction nodes generalizing s with
  | nil => rfl
  | cons node nodes ih => exact congrArg (some node :: ·) (ih _)

theorem exists_isWalk_walkEach (h : chance.Fair) (g : Directed) (steps : Nat) {nodes : List String}
    (s : σ) : ∀ walk ∈ (walkEach chance g steps nodes s).1, ∃ start ∈ nodes,
      g.IsWalk start steps walk := by
  induction nodes generalizing s with
  | nil => nofun
  | cons node nodes ih =>
    refine List.forall_mem_cons.2 ⟨?_, fun walk hwalk => ?_⟩
    · exact ⟨node, List.mem_cons_self, isWalk_stroll h g steps node s⟩
    · obtain ⟨start, hstart, hiswalk⟩ := ih _ walk hwalk
      exact ⟨start, List.mem_cons_of_mem _ hstart, hiswalk⟩

section

variable (h : chance.Fair) (g : Directed) (steps count : Nat) {nodes order : List String}
  (horder : order.Perm nodes) (s : σ)

include h horder

theorem head?_rounds_perm :
    ((rounds chance g steps count order s).1.map List.head?).Perm
      ((List.replicate count nodes).flatten.map some) := by
  induction count generalizing order s with
  | zero => exact .nil
  | succ count ih =>
    -- The order changes from round to round; that it holds all the nodes does not.
    have hshuffled := (h.shuffle s order).trans horder
    rw [rounds, List.map_append, map_head?_walkEach, List.replicate_succ, List.flatten_cons,
      List.map_append]
    exact (hshuffled.map some).append (ih hshuffled _)

theorem exists_isWalk_rounds :
    ∀ walk ∈ (rounds chance g steps count order s).1, ∃ start ∈ nodes,
      g.IsWalk start steps walk := by
  induction count generalizing order s with
  | zero => nofun
  | succ count ih =>
    have hshuffled := (h.shuffle s order).trans horder
    refine List.forall_mem_append.2 ⟨fun walk hwalk => ?_, ih hshuffled _⟩
    obtain ⟨start, hstart, hiswalk⟩ := exists_isWalk_walkEach h g steps _ walk hwalk
    exact ⟨start, hshuffled.mem_iff.1 hstart, hiswalk⟩

end

section

variable (h : chance.Fair) (g : Directed) (steps count : Nat) (nodes : List String) (s : σ)

include h

theorem length_rounds : (rounds chance g steps count nodes s).1.length = count * nodes.length := by
  have hlength := (head?_rounds_perm h g steps count (.refl nodes) s).length_eq
  simpa using hlength

theorem countP_rounds (node : String) :
    ((rounds chance g steps count nodes s).1.countP fun walk => walk.head? = some node) =
      count * nodes.count node := by
  have hcount := (head?_rounds_perm h g steps count (.refl nodes) s).count_eq (some node)
  rw [List.count_map_of_injective _ _ (Option.some_injective _), List.count_flatten,
    List.map_replicate, List.sum_replicate_nat, List.count_eq_countP, List.countP_map] at hcount
  rw [← hcount]
  exact List.countP_congr fun walk _ => by simp

end

section

variable (h : chance.Fair) {g : Directed} (hg : g.Valid) {node : String} (hnode : node ∈ g.nodes)
  (length : Int) (s : σ)

include h hg hnode

theorem countP_walks (count : Int) :
    ((walks chance g length count s).countP fun walk => walk.head? = some node) = count.toNat := by
  have hcount := countP_rounds h g (length - 1).toNat count.toNat g.nodes s node
  rw [List.count_eq_one_of_mem hg.nodup hnode, Nat.mul_one] at hcount
  exact hcount

theorem exists_walk_through {count : Int} (hcount : 1 ≤ count) :
    ∃ walk ∈ walks chance g length count s, node ∈ walk := by
  have hpos : 0 < (walks chance g length count s).countP fun walk => walk.head? = some node := by
    rw [countP_walks h hg hnode]
    omega
  obtain ⟨walk, hwalk, hhead⟩ := List.countP_pos_iff.1 hpos
  exact ⟨walk, hwalk, List.mem_of_head? (of_decide_eq_true hhead)⟩

end

theorem Model.map_fst_embed (m : Model) (nodes : List String) :
    (m.embed nodes).map Prod.fst = nodes.filter m.knows := by
  rw [embed, List.map_map]
  exact List.zipIdx_map_fst 1 (nodes.filter m.knows)

/-- However chance decides, a model is trained on the right number of walks, as many from each node;
all of them are walks of the graph, and short only where there is no way on. If there are walks at
all, a model that knows what it was trained on gives a vector to every node. -/
theorem learned_from_walks (chance : Chance σ) (h : chance.Fair) (g : Directed) (hg : g.Valid)
    (train : List (List String) → Options → Model) (o : Options) (s : σ) :
    let learned := learn chance train g o s
    (learned.walks.length : Int) = max 0 o.walkCount * g.nodes.length ∧
      (∀ node ∈ g.nodes,
        ((learned.walks.countP fun walk => walk.head? = some node : Nat) : Int) =
          max 0 o.walkCount) ∧
      (∀ walk ∈ learned.walks,
        (walk.IsChain fun source target => (source, target) ∈ g.edges) ∧
          (∀ node ∈ walk, node ∈ g.nodes) ∧
          1 ≤ walk.length ∧ (walk.length : Int) ≤ max 1 o.walkLength ∧
          ((walk.length : Int) < max 1 o.walkLength →
            ∃ last, walk.getLast? = some last ∧ ∀ next, (last, next) ∉ g.edges)) ∧
      (1 ≤ o.walkCount →
        (∀ node ∈ g.nodes, ∃ walk ∈ learned.walks, node ∈ walk) ∧
          ((∀ walk ∈ learned.walks, ∀ word ∈ walk, (train learned.walks o).knows word) →
            learned.vectors.map Prod.fst = g.nodes)) := by
  have hmax : (o.walkCount.toNat : Int) = max 0 o.walkCount := by omega
  have hsteps : (((o.walkLength - 1).toNat + 1 : Nat) : Int) = max 1 o.walkLength := by omega
  refine ⟨?_, fun node hnode => ?_, fun walk hwalk => ?_, fun hsome => ⟨fun node hnode => ?_, ?_⟩⟩
  · rw [← hmax, ← Int.natCast_mul]
    exact congrArg _ (length_rounds h g _ _ g.nodes s)
  · rw [← hmax]
    exact congrArg _ (countP_walks h hg hnode o.walkLength s o.walkCount)
  · obtain ⟨start, hmem, hiswalk⟩ := exists_isWalk_rounds h g _ _ (.refl g.nodes) s walk hwalk
    obtain ⟨rest, rfl⟩ := List.head?_eq_some_iff.1 hiswalk.starts
    rw [← hsteps]
    refine ⟨hiswalk.joined, hg.mem_of_isChain hmem hiswalk.joined, Nat.le_add_left 1 _,
      Int.ofNat_le.2 hiswalk.length_le, fun hshort => ?_⟩
    exact ⟨_, List.getLast?_cons, hiswalk.ends (Int.ofNat_lt.1 hshort) _ List.getLast?_cons⟩
  · exact exists_walk_through h hg hnode o.walkLength s hsome
  · intro hknows
    refine (Model.map_fst_embed _ _).trans (List.filter_eq_self.2 fun node hnode => ?_)
    obtain ⟨walk, hwalk, hmem⟩ := exists_walk_through h hg hnode o.walkLength s hsome
    exact hknows walk hwalk node hmem

def byTurns : Chance Nat where
  shuffle n nodes := (nodes.reverse, n)
  choose n first others := (if n % 2 = 0 then first else others.getLastD first, n + 1)

def forkGraph : Directed :=
  (((Directed.empty.addNode "d").addEdge "a" "b").addEdge "a" "c").addEdge "c" "c"

def trainedOn (walks : List (List String)) (_ : Options) : Model :=
  ⟨fun node => walks.any (·.contains node), fun n node => .arr [.ofNat n, .str node]⟩

def shortWalks : Options := { Options.standard with walkLength := 3, walkCount := 2 }

theorem learned_from_forkGraph :
    byTurns.Fair ∧ forkGraph.Valid ∧
      (learn byTurns trainedOn forkGraph shortWalks 0).walks =
        [["c", "c", "c"], ["b"], ["a", "b"], ["d"], ["d"], ["a", "c", "c"], ["b"],
          ["c", "c", "c"]] ∧
      ((learn byTurns trainedOn forkGraph shortWalks 0).walks.length : Int) =
        max 0 2 * forkGraph.nodes.length ∧
      (learn byTurns trainedOn forkGraph shortWalks 0).vectors.map Prod.fst =
        ["d", "a", "b", "c"] := by
  have hfair : byTurns.Fair := by
    refine ⟨fun n nodes => List.reverse_perm nodes, fun n first others => ?_⟩
    unfold byTurns
    dsimp only
    split
    · exact List.mem_cons_self
    · exact List.getLastD_mem_cons
  have hvalid : forkGraph.Valid :=
    (((Directed.valid_empty.addNode "d").addEdge "a" "b").addEdge "a" "c").addEdge "c" "c"
  obtain ⟨hlength, -, -, hknown⟩ :=
    learned_from_walks byTurns hfair forkGraph hvalid trainedOn shortWalks 0
  refine ⟨hfair, hvalid, by decide +kernel, hlength, ?_⟩
  refine ((hknown (by decide)).2 fun walk hwalk word hword => ?_).trans (by decide +kernel)
  exact List.any_eq_true.2 ⟨walk, hwalk, List.contains_iff_mem.2 hword⟩

end Embedding

end CodeAtlas
