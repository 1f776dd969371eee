import CodeAtlas.Proofs.Addresses
import CodeAtlas.Proofs.Readme.Digest
import CodeAtlas.Proofs.Survey.Placement

/-! The digest of a survey as a list of all there is. Files and folders are told apart by their
addresses below the root, since two of them may look alike, and the digest goes through the
addresses in their order. -/

namespace CodeAtlas

open Text (Points)

namespace Entry

def children : Entry → List Entry
  | file _ _ _ => []
  | folder _ _ children => children

def at? : Entry → List Nat → Option Entry
  | e, [] => some e
  | e, i :: rest => e.children[i]?.bind fun child => child.at? rest

mutual

def spots : Entry → List (List Nat × Entry)
  | file name path finding => [([], file name path finding)]
  | folder name path children => ([], folder name path children) :: spotsEach 0 children

def spotsEach (i : Nat) : List Entry → List (List Nat × Entry)
  | [] => []
  | e :: es => (spots e).map (fun spot => (i :: spot.1, spot.2)) ++ spotsEach (i + 1) es

end

theorem spotsEach_eq (i : Nat) (es : List Entry) :
    spotsEach i es = (es.zipIdx i).flatMap fun p =>
      p.1.spots.map fun spot => (p.2 :: spot.1, spot.2) := by
  induction es generalizing i with
  | nil => rfl
  | cons e es ih => rw [spotsEach, ih, List.zipIdx_cons, List.flatMap_cons]

theorem listsSpots : ListsSpots children spots := by
  intro e
  cases e with
  | file name path finding => rw [spots]; rfl
  | folder name path children => rw [spots, spotsEach_eq]; rfl

theorem mem_spots {e n : Entry} {a : List Nat} : (a, n) ∈ e.spots ↔ e.at? a = some n :=
  listsSpots.mem_iff fun _ => ⟨rfl, fun _ _ => rfl⟩

theorem sizeOf_lt_of_mem_children {e child : Entry} (h : child ∈ e.children) :
    sizeOf child < sizeOf e := by
  cases e with
  | file name path finding => cases h
  | folder name path children =>
    have hlt : sizeOf child < sizeOf children := List.sizeOf_lt_of_mem h
    rw [folder.sizeOf_spec]
    omega

theorem pairwise_spots (e : Entry) : e.spots.Pairwise fun s s' => s.1 < s'.1 :=
  listsSpots.pairwise (fun _ _ => sizeOf_lt_of_mem_children) e

mutual

theorem preorder_eq (level : Int) (e : Entry) :
    e.preorder level = e.spots.map fun spot => (level + spot.1.length, spot.2) := by
  match e with
  | .file name path finding =>
    rw [preorder, spots]
    simp
  | .folder name path children =>
    rw [preorder, spots, preorderEach_eq level 0 children]
    simp

theorem preorderEach_eq (level : Int) (i : Nat) (es : List Entry) :
    preorderEach (level + 1) es =
      (spotsEach i es).map fun spot => (level + spot.1.length, spot.2) := by
  match es with
  | [] => rfl
  | e :: es =>
    rw [preorderEach, spotsEach, List.map_append, preorder_eq (level + 1) e,
      preorderEach_eq level (i + 1) es, List.map_map]
    congr 2
    funext spot
    simp only [Function.comp_apply, List.length_cons, Prod.mk.injEq, and_true]
    omega

end

theorem joined_of_mem_children {e child : Entry} (h : e.Joined) (hchild : child ∈ e.children) :
    FileTree.isName child.name ∧ child.Joined := by
  have heach {above : String} {es : List Entry} (hes : JoinedEach above es) (hmem : child ∈ es) :
      FileTree.isName child.name ∧ child.Joined := by
    induction es with
    | nil => cases hmem
    | cons first rest ih =>
      rw [JoinedEach] at hes
      rcases List.mem_cons.1 hmem with rfl | hmem
      · exact ⟨hes.1, hes.2.2.1⟩
      · exact ih hes.2.2.2 hmem
  cases e with
  | file name path finding => cases hchild
  | folder name path children =>
    rw [Joined] at h
    exact heach h.2.2 hchild

theorem isName_of_at? {e n : Entry} {a : List Nat} (hname : FileTree.isName e.name) (h : e.Joined)
    (hat : e.at? a = some n) : FileTree.isName n.name := by
  induction a generalizing e with
  | nil => exact Option.some.inj hat ▸ hname
  | cons i rest ih =>
    obtain ⟨child, hchild, hrest⟩ := Option.bind_eq_some_iff.1 hat
    obtain ⟨hname, hjoined⟩ := joined_of_mem_children h (List.mem_of_getElem? hchild)
    exact ih hname hjoined hrest

def blocks (e : Entry) : List (List (List Nat × Entry)) :=
  e.children.zipIdx.map fun p => p.1.spots.map fun spot => (p.2 :: spot.1, spot.2)

theorem spots_eq_blocks (e : Entry) : e.spots = ([], e) :: e.blocks.flatten := by
  rw [listsSpots e, List.flatMap_def, blocks]

theorem pairwise_blocks (e : Entry) : e.blocks.flatten.Pairwise fun s s' => s.1 < s'.1 :=
  (List.pairwise_cons.1 (e.spots_eq_blocks ▸ e.pairwise_spots)).2

theorem mem_blocks {e n : Entry} {a : List Nat} :
    (a, n) ∈ e.blocks.flatten ↔ a ≠ [] ∧ e.at? a = some n := by
  have hpairwise := e.pairwise_spots
  rw [spots_eq_blocks, List.pairwise_cons] at hpairwise
  rw [← mem_spots, spots_eq_blocks, List.mem_cons]
  constructor
  · intro hmem
    refine ⟨?_, .inr hmem⟩
    rintro rfl
    exact List.not_lt_nil _ (hpairwise.1 _ hmem)
  · rintro ⟨hne, htop | hmem⟩
    · exact absurd (Prod.mk.inj htop).1 hne
    · exact hmem

theorem head?_of_mem_blocks {e : Entry} {i : Nat} {block : List (List Nat × Entry)}
    (h : e.blocks[i]? = some block) : ∀ spot ∈ block, spot.1.head? = some i := by
  rw [blocks, List.getElem?_map, List.getElem?_zipIdx, Option.map_map] at h
  obtain ⟨child, -, rfl⟩ := Option.map_eq_some_iff.1 h
  intro spot hspot
  obtain ⟨below, -, rfl⟩ := List.mem_map.1 hspot
  simp

end Entry

namespace Readme

open Survey (survey)

def entryLine (depth : Nat) : Entry → Points
  | .file name _ finding =>
    (s!"{indentation depth}📄 **File**: `" : Points) ++ name ++ "` | Language: `"
      ++ finding.languageName ++ "`"
  | .folder name _ _ => (s!"{indentation depth}📁 " : Points) ++ name

theorem headline_eq {e : Entry} (h : FileTree.isName e.name) (depth : Nat) :
    headline (depth, e) = entryLine depth e := by
  have hshown (path : String) : shownName e.name path = e.name :=
    if_pos (FileTree.isName_iff.1 h).1
  cases e with
  | file name path finding =>
    rw [Entry.name] at hshown
    rw [headline, entryLine, hshown]
  | folder name path children =>
    rw [Entry.name] at hshown
    rw [headline, entryLine, hshown]

def listing (blocks : List (List (List Nat × Entry))) : List Points :=
  blocks.flatMap fun block =>
    block.map (fun spot => entryLine (spot.1.length - 1) spot.2) ++ [[]]

theorem listing_blocks {e : Entry} (h : e.Joined) :
    listing e.blocks = e.children.flatMap fun child => (child.preorder 0).map headline ++ [[]] := by
  have hchild (i : Nat) {child : Entry} (hmem : child ∈ e.children) :
      (child.spots.map fun spot => (i :: spot.1, spot.2)).map
          (fun spot => entryLine (spot.1.length - 1) spot.2) =
        (child.preorder 0).map headline := by
    obtain ⟨hname, hjoined⟩ := Entry.joined_of_mem_children h hmem
    rw [Entry.preorder_eq, List.map_map, List.map_map]
    refine List.map_congr_left fun spot hspot => ?_
    have hspotName := Entry.isName_of_at? hname hjoined (Entry.mem_spots.1 hspot)
    rw [Function.comp_apply, Function.comp_apply, Int.zero_add, headline_eq hspotName]
    rfl
  conv_rhs => rw [← List.zipIdx_map_fst 0 e.children, List.flatMap_map]
  rw [listing, Entry.blocks, List.flatMap_map]
  refine List.flatMap_congr fun p hp => ?_
  rw [hchild p.2 (List.mem_of_getElem? (List.mem_zipIdx_iff_getElem?.1 hp))]

/-- The digest of a surveyed folder has a line for each entry below the root, child by child with an
empty line after each. The addresses of the entries go up, so none is repeated or out of order, and
all addresses are there, so none is missing. -/
theorem digest_lists_entries (lib : Grammar.Library) (d : Disk) (root : String)
    (p : Survey.Progress) (seen : List (String × View)) (h : d.view root = .folder seen) :
    ∃ name path children, ∃ blocks : List (List (List Nat × Entry)),
      (survey lib d root p).1 = .folder name path children ∧
      digest (survey lib d root p).1.toJson = .ok (Text.joinLines (title :: listing blocks)) ∧
      blocks.length = children.length ∧
      (∀ i (block : List (List Nat × Entry)), blocks[i]? = some block →
        ∀ spot ∈ block, spot.1.head? = some i) ∧
      (blocks.flatten.Pairwise fun s s' => s.1 < s'.1) ∧
      ∀ a e, (a, e) ∈ blocks.flatten ↔ a ≠ [] ∧ (survey lib d root p).1.at? a = some e := by
  have hjoined := Survey.joined_survey lib d root p
  obtain ⟨name, path, children, hfolder⟩ : ∃ name path children,
      (survey lib d root p).1 = .folder name path children := by
    rw [survey, h, Survey.surveyView]
    exact ⟨_, _, _, rfl⟩
  rw [hfolder] at hjoined ⊢
  refine ⟨name, path, children, (Entry.folder name path children).blocks, rfl, ?_, ?_, ?_, ?_, ?_⟩
  · rw [digest_folder, listing_blocks hjoined]
    rfl
  · rw [Entry.blocks, List.length_map, List.length_zipIdx, Entry.children]
  · exact fun i block => Entry.head?_of_mem_blocks
  · exact Entry.pairwise_blocks _
  · exact fun a e => Entry.mem_blocks

def hollowDisk : Disk :=
  ⟨.folder [("a.metta", .file areaCode), ("lib", .folder [("void", .folder [])])], []⟩

theorem view_hollowDisk :
    hollowDisk.view "/" =
      .folder [("a.metta", .file (.ok areaCode)), ("lib", .folder [("void", .folder [])])] := by
  have hnames : FileTree.shownNames
      [("a.metta", .file areaCode), ("lib", .folder [("void", .folder [])])] =
        ["a.metta", "lib"] := by decide +kernel
  have hinner : FileTree.shownNames [("void", .folder [])] = ["void"] := by decide +kernel
  have hprogram : hollowDisk.view (Path.join "/" "a.metta") = .file (.ok areaCode) :=
    Disk.view_in_root "a.metta" (by decide +kernel) (by decide +kernel) (by decide) rfl
  have hroot : hollowDisk.status "/" = .ok hollowDisk.root := by
    refine @Disk.status_of_follow hollowDisk "/" [] _ rfl ?_ rfl
    exact Disk.follow_dots _ _ _ (by decide +kernel)
  have hlib : hollowDisk.status (Path.join "/" "lib") = .ok (.folder [("void", .folder [])]) :=
    Disk.status_join hroot (by decide +kernel) (by decide) (by decide) (by decide +kernel)
      (by decide +kernel) rfl (by simp)
  have hvoid : hollowDisk.status (Path.join (Path.join "/" "lib") "void") = .ok (.folder []) :=
    Disk.status_join hlib (by decide +kernel) (by decide) (by decide) (by decide +kernel)
      (by decide +kernel) rfl (by simp)
  rw [Disk.view_folder hroot, hnames]
  simp only [List.map_cons, List.map_nil, hprogram, Disk.view_folder hlib, hinner,
    Disk.view_folder hvoid]
  rfl

theorem digest_lists_void :
    hollowDisk.view "/" =
        .folder [("a.metta", .file (.ok areaCode)), ("lib", .folder [("void", .folder [])])] ∧
      ∃ blocks, digest (survey unbuilt hollowDisk "/" .none).1.toJson =
          .ok (Text.joinLines (title :: listing blocks)) ∧
        ([1, 0], .folder "void" "/lib/void" []) ∈ blocks.flatten ∧
        entryLine 1 (.folder "void" "/lib/void" []) = Points.ofString "  📁 void" := by
  obtain ⟨-, -, -, blocks, -, hdigest, -, -, -, hmem⟩ :=
    digest_lists_entries unbuilt hollowDisk "/" .none _ view_hollowDisk
  refine ⟨view_hollowDisk, blocks, hdigest, (hmem _ _).2 ⟨by decide, ?_⟩, by decide +kernel⟩
  have hnames : Path.baseName (Path.join (Path.join "/" "lib") "void") = "void" ∧
      Path.absolute hollowDisk.cwd (Path.join (Path.join "/" "lib") "void") = "/lib/void" := by
    decide +kernel
  rw [survey, view_hollowDisk]
  simp only [Survey.surveyView, Survey.surveyEach, hnames]
  rfl

end Readme

end CodeAtlas
