import CodeAtlas.Proofs.Disk.Erasing

/-! Disks that grow: whatever is there stays there, and stays what it is, though the content of
files and folders may change. Paths then lead where they led. Writing files and making folders lets
a disk grow; taking something away is the reverse, and nothing is found under its path afterwards.
-/

namespace CodeAtlas

theorem bind_eq_ok_iff {ε α β : Type} {x : Except ε α} {f : α → Except ε β} {b : β} :
    x >>= f = .ok b ↔ ∃ a, x = .ok a ∧ f a = .ok b := by
  cases x <;> simp [bind, Except.bind]

namespace FileTree

inductive SameKind : FileTree → FileTree → Prop
  | file (bytes bytes' : List UInt8) : SameKind (.file bytes) (.file bytes')
  | link (target : String) : SameKind (.link target) (.link target)
  | folder (entries entries' : List (String × FileTree)) :
    SameKind (.folder entries) (.folder entries')

theorem SameKind.refl (t : FileTree) : SameKind t t := by
  cases t <;> constructor

theorem SameKind.trans {t u v : FileTree} (h : SameKind t u) (h' : SameKind u v) :
    SameKind t v := by
  cases h <;> cases h' <;> constructor

def Grows (t t' : FileTree) : Prop :=
  ∀ place found, t.get? place = some found →
    ∃ found', t'.get? place = some found' ∧ SameKind found found'

theorem Grows.refl (t : FileTree) : t.Grows t := fun _ found h => ⟨found, h, .refl found⟩

theorem Grows.trans {t u v : FileTree} (h : t.Grows u) (h' : u.Grows v) : t.Grows v := by
  intro place found hfound
  obtain ⟨later, hlater, hkind⟩ := h place found hfound
  obtain ⟨last, hlast, hkind'⟩ := h' place later hlater
  exact ⟨last, hlast, hkind.trans hkind'⟩

theorem HasFolder.grow {t t' : FileTree} {place : List String} (h : t.HasFolder place)
    (hgrows : t.Grows t') : t'.HasFolder place := by
  obtain ⟨entries, hentries⟩ := h
  obtain ⟨found, hfound, hkind⟩ := hgrows place _ hentries
  cases hkind
  exact ⟨_, hfound⟩

def IsOpen (t : FileTree) (place : List String) : Prop :=
  ∀ above, above <+: place → above ≠ place → t.HasFolder above

theorem HasFolder.isOpen {t : FileTree} {folder : List String} (h : t.HasFolder folder)
    (name : String) : t.IsOpen (folder ++ [name]) := by
  intro above habove hne
  rcases List.prefix_concat_iff.1 habove with heq | hfront
  · exact absurd heq hne
  · exact h.of_prefix hfront

theorem grows_put {t new : FileTree} {place : List String} (hopen : t.IsOpen place)
    (hplace : ∀ found, t.get? place = some found →
      (∃ bytes, found = .file bytes) ∧ ∃ bytes, new = .file bytes) :
    t.Grows (put new place t) := by
  intro other found hfound
  by_cases heq : other = place
  · subst heq
    obtain ⟨⟨bytes, rfl⟩, bytes', rfl⟩ := hplace found hfound
    exact ⟨_, get?_put_self _ _ _, .file bytes bytes'⟩
  by_cases habove : other <+: place
  · obtain ⟨entries, hentries⟩ := hopen other habove heq
    obtain ⟨entries', hentries'⟩ := hasFolder_put new t habove heq
    rw [hentries] at hfound
    obtain rfl := Option.some.inj hfound
    exact ⟨_, hentries', .folder entries entries'⟩
  by_cases hbelow : place <+: other
  · obtain ⟨entries, hentries⟩ := hasFolder_of_prefix hfound hbelow (Ne.symm heq)
    obtain ⟨⟨bytes, hbytes⟩, -⟩ := hplace _ hentries
    cases hbytes
  · exact ⟨found, (get?_put_beside new t habove hbelow).trans hfound, .refl found⟩

theorem Remains.sameKind_left {keep : String → Prop} {found : FileTree} {left : Option FileTree}
    (h : Remains keep (some found) left) : ∃ t, left = some t ∧ SameKind found t := by
  cases h with
  | file bytes => exact ⟨_, rfl, .refl _⟩
  | link target => exact ⟨_, rfl, .refl _⟩
  | folder _ => exact ⟨_, rfl, .folder _ _⟩

theorem Remains.sameKind_right {keep : String → Prop} {before : Option FileTree} {left : FileTree}
    (h : Remains keep before (some left)) : ∃ t, before = some t ∧ SameKind left t := by
  cases h with
  | file bytes => exact ⟨_, rfl, .refl _⟩
  | link target => exact ⟨_, rfl, .refl _⟩
  | folder _ => exact ⟨_, rfl, .folder _ _⟩

section
variable {t removed : FileTree} {place : List String}

theorem grows_of_erase (h : t.get? place = some removed) (hne : place ≠ []) :
    (t.erase place).Grows t := by
  intro other left hleft
  have hbeside : ¬ place <+: other := by
    intro hbelow
    rw [get?_erase_below t hne hbelow] at hleft
    cases hleft
  have hremains := get?_erase_beside h hbeside
  rw [hleft] at hremains
  exact hremains.sameKind_right

theorem Grows.erase {t₀ : FileTree} (hgrows : t₀.Grows t) (hfresh : t₀.get? place = none)
    (h : t.get? place = some removed) : t₀.Grows (t.erase place) := by
  intro other found hfound
  have hbeside : ¬ place <+: other := by
    intro hbelow
    have hne : place ≠ other := by
      rintro rfl
      rw [hfresh] at hfound
      cases hfound
    obtain ⟨entries, hentries⟩ := hasFolder_of_prefix hfound hbelow hne
    rw [hfresh] at hentries
    cases hentries
  obtain ⟨later, hlater, hkind⟩ := hgrows other found hfound
  have hremains := get?_erase_beside h hbeside
  rw [hlater] at hremains
  obtain ⟨left, hleft, hkind'⟩ := hremains.sameKind_left
  exact ⟨left, hleft, hkind.trans hkind'⟩

end

end FileTree

namespace Disk

section
variable {root root' : FileTree} {place here todo : List String} {links : Nat}

theorem lookUp_grow {name : String} {t : FileTree} (h : lookUp root here name = .ok (some t))
    (hgrows : root.Grows root') :
    ∃ t', lookUp root' here name = .ok (some t') ∧ FileTree.SameKind t t' := by
  obtain ⟨t', hnow, hkind⟩ := hgrows _ _ (get?_of_lookUp h)
  exact ⟨t', (lookUp_of_lookUp h _).trans (congrArg _ hnow), hkind⟩

theorem Leads.grow (h : Leads root place links here todo) (hgrows : root.Grows root') :
    Leads root' place links here todo := by
  induction h with
  | done links => exact .done links
  | dot _ ih => exact .dot ih
  | up _ ih => exact .up ih
  | folder hname hfound _ ih =>
    obtain ⟨_, hnow, ⟨⟩⟩ := lookUp_grow hfound hgrows
    exact .folder hname hnow ih
  | file hname hfound hplace =>
    obtain ⟨_, hnow, ⟨⟩⟩ := lookUp_grow hfound hgrows
    exact .file hname hnow hplace
  | link hname hfound _ ih =>
    obtain ⟨_, hnow, ⟨⟩⟩ := lookUp_grow hfound hgrows
    exact .link hname hnow ih

theorem Leads.hasFolder (h : Leads root place links here todo) (hhere : root.HasFolder here)
    (hlast : ∀ step ∈ todo.getLast?, step = ".") : root.HasFolder place := by
  have htail {name : String} {rest : List String}
      (hlast : ∀ step ∈ (name :: rest).getLast?, step = ".") :
      ∀ step ∈ rest.getLast?, step = "." := by
    cases rest with
    | nil => exact fun step hstep => absurd hstep (Option.not_mem_none step)
    | cons second rest => rwa [List.getLast?_cons_cons] at hlast
  induction h with
  | done links => exact hhere
  | dot _ ih => exact ih hhere (htail hlast)
  | up _ ih => exact ih (hhere.of_prefix (List.dropLast_prefix _)) (htail hlast)
  | folder _ hfound _ ih => exact ih ⟨_, get?_of_lookUp hfound⟩ (htail hlast)
  | file hname _ _ => exact absurd (hlast _ rfl) hname.1
  | @link links here rest name target hname _ _ ih =>
    refine ih ?_ ?_
    · split
      · exact hhere.of_prefix List.nil_prefix
      · exact hhere
    · cases rest with
      | nil => exact absurd (hlast _ rfl) hname.1
      | cons second rest =>
        rw [List.getLast?_append_of_ne_nil _ (List.cons_ne_nil second rest)]
        exact htail hlast

end

structure Grows (d d' : Disk) : Prop where
  root : d.root.Grows d'.root
  here : d'.here = d.here

namespace Grows

variable {d d' d'' : Disk} {path : String}

theorem refl (d : Disk) : d.Grows d := ⟨.refl _, rfl⟩

theorem trans (h : d.Grows d') (h' : d'.Grows d'') : d.Grows d'' :=
  ⟨h.root.trans h'.root, h'.here.trans h.here⟩

theorem hasFolder_here (h : d.Grows d') (hhere : d.root.HasFolder d.here) :
    d'.root.HasFolder d'.here := by
  rw [h.here]
  exact hhere.grow h.root

theorem start_eq (h : d.Grows d') : d'.start path = d.start path := by
  rw [start, start, h.here]

end Grows

section
variable {d d' : Disk} {path : String} {place folder : List String} {name : String}

theorem locateEnd_of_follow (hcheck : checkPath path = .ok ()) (hname : IsLooked name)
    (hlast : (names path).getLast? = some name)
    (hfollow : follow d.root maxLinks (d.start path) ((names path).dropLast ++ ["."]) =
      .ok folder) : d.locateEnd path = .ok (folder, some name) := by
  rw [locateEnd, hcheck]
  simp only [bind, Except.bind, hfollow, hlast]
  rw [if_neg (not_or.2 hname)]
  rfl

theorem locateEnd_grow (h : d.locateEnd path = .ok (folder, some name)) (hgrows : d.Grows d') :
    d'.locateEnd path = .ok (folder, some name) := by
  obtain ⟨hcheck, hname, hlast, hfollow⟩ := locateEnd_eq_ok h
  refine locateEnd_of_follow hcheck hname hlast ?_
  rw [hgrows.start_eq]
  exact ((leads_of_follow _ _ _ hfollow).grow hgrows.root).follow_eq

theorem hasFolder_start (hhere : d.root.HasFolder d.here) (path : String) :
    d.root.HasFolder (d.start path) := by
  rw [start]
  split
  · exact hhere.of_prefix List.nil_prefix
  · exact hhere

theorem hasFolder_of_locateEnd (h : d.locateEnd path = .ok (folder, some name))
    (hhere : d.root.HasFolder d.here) : d.root.HasFolder folder := by
  obtain ⟨-, -, -, hfollow⟩ := locateEnd_eq_ok h
  exact (leads_of_follow _ _ _ hfollow).hasFolder (hasFolder_start hhere path) (by simp)

theorem placeToRemove_eq_ok_iff :
    d.placeToRemove path = .ok place ↔
      ∃ folder name, d.locateEnd path = .ok (folder, some name) ∧ place = folder ++ [name] ∧
        ∃ t, lookUp d.root folder name = .ok (some t) := by
  rw [placeToRemove, bind_eq_ok_iff]
  constructor
  · rintro ⟨⟨folder, last⟩, hend, h⟩
    cases last with
    | none => cases h
    | some name =>
      obtain ⟨found, hfound, h⟩ := bind_eq_ok_iff.1 h
      cases found with
      | none => cases h
      | some t => exact ⟨folder, name, hend, (Except.ok.inj h).symm, t, hfound⟩
  · rintro ⟨folder, name, hend, rfl, t, hfound⟩
    exact ⟨_, hend, bind_eq_ok_iff.2 ⟨_, hfound, rfl⟩⟩

theorem placeToMake_eq_ok_iff :
    d.placeToMake path = .ok place ↔
      ∃ folder name, d.locateEnd path = .ok (folder, some name) ∧ place = folder ++ [name] ∧
        lookUp d.root folder name = .ok none := by
  rw [placeToMake, bind_eq_ok_iff]
  constructor
  · rintro ⟨⟨folder, last⟩, hend, h⟩
    cases last with
    | none => cases h
    | some name =>
      obtain ⟨found, hfound, h⟩ := bind_eq_ok_iff.1 h
      cases found with
      | none => exact ⟨folder, name, hend, (Except.ok.inj h).symm, hfound⟩
      | some t => cases h
  · rintro ⟨folder, name, hend, rfl, hfound⟩
    exact ⟨_, hend, bind_eq_ok_iff.2 ⟨_, hfound, rfl⟩⟩

/-! Taking away -/

def Holds (d : Disk) (path : String) : Prop := ∃ place, d.placeToRemove path = .ok place

theorem not_holds_of_placeToMake (h : d.placeToMake path = .ok place) : ¬ d.Holds path := by
  rintro ⟨there, hthere⟩
  obtain ⟨folder, name, hend, -, hnone⟩ := placeToMake_eq_ok_iff.1 h
  obtain ⟨folder', name', hend', -, t, ht⟩ := placeToRemove_eq_ok_iff.1 hthere
  cases hend.symm.trans hend'
  cases hnone.symm.trans ht

theorem placeToRemove_grow (h : d.placeToRemove path = .ok place) (hgrows : d.Grows d') :
    d'.placeToRemove path = .ok place := by
  obtain ⟨folder, name, hend, rfl, t, hfound⟩ := placeToRemove_eq_ok_iff.1 h
  obtain ⟨t', hnow, -⟩ := lookUp_grow hfound hgrows.root
  exact placeToRemove_eq_ok_iff.2 ⟨folder, name, locateEnd_grow hend hgrows, rfl, t', hnow⟩

theorem Holds.grow (h : d.Holds path) (hgrows : d.Grows d') : d'.Holds path := by
  obtain ⟨place, hplace⟩ := h
  exact ⟨place, placeToRemove_grow hplace hgrows⟩

theorem exists_of_placeToRemove (h : d.placeToRemove path = .ok place) :
    place ≠ [] ∧ ∃ t, d.root.get? place = some t := by
  obtain ⟨folder, name, -, rfl, t, hfound⟩ := placeToRemove_eq_ok_iff.1 h
  exact ⟨by simp, t, get?_of_lookUp hfound⟩

theorem grows_of_without (h : d.placeToRemove path = .ok place) : (d.without place).Grows d := by
  obtain ⟨hne, t, ht⟩ := exists_of_placeToRemove h
  exact ⟨FileTree.grows_of_erase ht hne, rfl⟩

theorem not_holds_without (h : d.placeToRemove path = .ok place) :
    ¬ (d.without place).Holds path := by
  rintro ⟨left, hleft⟩
  have hsame := (placeToRemove_grow hleft (grows_of_without h)).symm.trans h
  obtain rfl := Except.ok.inj hsame
  obtain ⟨hne, t, ht⟩ := exists_of_placeToRemove hleft
  rw [without, FileTree.get?_erase_below d.root hne List.prefix_rfl] at ht
  cases ht

theorem grows_of_removeAll (d : Disk) (path : String) : (d.removeAll path).Grows d := by
  unfold removeAll
  split
  · exact .refl d
  · next hplace => exact grows_of_without hplace

theorem not_holds_removeAll (d : Disk) (path : String) : ¬ (d.removeAll path).Holds path := by
  unfold removeAll
  split
  · next hnone =>
    rintro ⟨place, hplace⟩
    rw [hnone] at hplace
    cases hplace
  · next hplace => exact not_holds_without hplace

theorem Grows.removeAll {d₀ : Disk} (hgrows : d₀.Grows d) (hfresh : d₀.root.get? place = none)
    (h : d.placeToRemove path = .ok place) : d₀.Grows (d.removeAll path) := by
  obtain ⟨-, t, ht⟩ := exists_of_placeToRemove h
  rw [Disk.removeAll, h]
  exact ⟨hgrows.root.erase hfresh ht, hgrows.here⟩

theorem not_holds_of_remove (h : d.remove path = .ok d') : ¬ d'.Holds path := by
  unfold remove at h
  split at h
  · cases h
  · next hplace =>
    split at h
    · cases h
    · obtain rfl := Except.ok.inj h
      exact not_holds_without hplace

/-! Writing and making -/

theorem isOpen_of_placeToWrite (hhere : d.root.HasFolder d.here)
    (h : d.placeToWrite path = .ok place) : d.root.IsOpen place ∧ IsFree d.root place := by
  obtain ⟨-, folder, name, found, hend, -, hcases⟩ := placeToWrite_eq_ok h
  rcases hcases with ⟨-, hlocate, hnot⟩ | ⟨rfl, hfree⟩
  -- A link leads to something that is there, and that is no folder.
  · obtain ⟨t, ht, hlink⟩ := (leads_of_follow _ _ _ (locate_eq_ok hlocate)).exists_of_hasFolder
      (hasFolder_start hhere path)
    refine ⟨fun above => FileTree.hasFolder_of_prefix ht, fun t' ht' => ?_⟩
    obtain rfl := Option.some.inj (ht.symm.trans ht')
    cases t with
    | file bytes => exact ⟨bytes, rfl⟩
    | link target => exact absurd rfl (hlink target)
    | folder entries => exact absurd ⟨entries, ht⟩ hnot
  · exact ⟨(hasFolder_of_locateEnd hend hhere).isOpen name, hfree⟩

theorem grows_write {bytes : List UInt8} (hhere : d.root.HasFolder d.here)
    (h : d.write path bytes = .ok d') : d.Grows d' := by
  unfold write at h
  split at h
  · next place hplace =>
    obtain rfl := Except.ok.inj h
    obtain ⟨hopen, hfree⟩ := isOpen_of_placeToWrite hhere hplace
    exact ⟨FileTree.grows_put hopen fun t ht => ⟨hfree t ht, bytes, rfl⟩, rfl⟩
  · cases h

section
variable (hhere : d.root.HasFolder d.here) (h : d.placeToMake path = .ok place)
include hhere h

theorem isOpen_of_placeToMake : d.root.IsOpen place ∧ d.root.get? place = none := by
  obtain ⟨folder, name, hend, rfl, hfound⟩ := placeToMake_eq_ok_iff.1 h
  exact ⟨(hasFolder_of_locateEnd hend hhere).isOpen name, get?_of_lookUp hfound⟩

theorem grows_putNew (new : FileTree) : d.Grows { d with root := .put new place d.root } := by
  obtain ⟨hopen, hnone⟩ := isOpen_of_placeToMake hhere h
  refine ⟨FileTree.grows_put hopen fun t ht => ?_, rfl⟩
  rw [hnone] at ht
  cases ht

theorem placeToRemove_putNew (new : FileTree) :
    ({ d with root := .put new place d.root } : Disk).placeToRemove path = .ok place := by
  have hgrows := grows_putNew hhere h new
  obtain ⟨folder, name, hend, rfl, hfound⟩ := placeToMake_eq_ok_iff.1 h
  exact placeToRemove_eq_ok_iff.2 ⟨folder, name, locateEnd_grow hend hgrows, rfl, new,
    (lookUp_of_lookUp hfound _).trans (congrArg _ (FileTree.get?_put_self _ _ _))⟩

theorem placeToMake_putNew {other : String} {place' : List String} (new : FileTree)
    (hother : d.placeToMake other = .ok place') (hne : place' ≠ place) :
    ({ d with root := .put new place d.root } : Disk).placeToMake other = .ok place' := by
  have hgrows := grows_putNew hhere h new
  obtain ⟨hopen, hnone⟩ := isOpen_of_placeToMake hhere h
  obtain ⟨hopen', hnone'⟩ := isOpen_of_placeToMake hhere hother
  have habove : ¬ place' <+: place := by
    intro habove
    obtain ⟨entries, hentries⟩ := hopen place' habove hne
    rw [hnone'] at hentries
    cases hentries
  have hbelow : ¬ place <+: place' := by
    intro hbelow
    obtain ⟨entries, hentries⟩ := hopen' place hbelow (Ne.symm hne)
    rw [hnone] at hentries
    cases hentries
  obtain ⟨folder, name, hend, rfl, hfound⟩ := placeToMake_eq_ok_iff.1 hother
  refine placeToMake_eq_ok_iff.2 ⟨folder, name, locateEnd_grow hend hgrows, rfl, ?_⟩
  exact (lookUp_of_lookUp hfound _).trans
    (congrArg _ ((FileTree.get?_put_beside new _ habove hbelow).trans hnone'))

end

theorem write_of_placeToMake (h : d.placeToMake path = .ok place)
    (hslash : Path.endsInSlash path = false) (bytes : List UInt8) :
    d.write path bytes = .ok { d with root := .put (.file bytes) place d.root } := by
  obtain ⟨folder, name, hend, rfl, hfound⟩ := placeToMake_eq_ok_iff.1 h
  have hplace : d.placeToWrite path = .ok (folder ++ [name]) := by
    rw [placeToWrite, bind_eq_ok_iff]
    refine ⟨_, hend, ?_⟩
    simp only [hslash, Bool.false_eq_true, if_false]
    exact bind_eq_ok_iff.2 ⟨_, hfound, rfl⟩
  rw [write, hplace]

theorem makeFolder_of_placeToMake (h : d.placeToMake path = .ok place) :
    d.makeFolder path = .ok { d with root := .put (.folder []) place d.root } := by
  rw [makeFolder, h]

theorem grows_makeFolder (hhere : d.root.HasFolder d.here) (h : d.makeFolder path = .ok d') :
    d.Grows d' := by
  unfold makeFolder at h
  split at h
  · next place hplace => exact Except.ok.inj h ▸ grows_putNew hhere hplace _
  · cases h

theorem grows_needFolder (hhere : d.root.HasFolder d.here) (h : d.needFolder path = .ok d') :
    d.Grows d' := by
  unfold needFolder at h
  split at h
  · exact Except.ok.inj h ▸ .refl d
  · exact grows_makeFolder hhere h

theorem grows_fillIn (hhere : d.root.HasFolder d.here) (h : d.fillIn path = .ok d') :
    d.Grows d' := by
  unfold fillIn at h
  split at h
  · exact Except.ok.inj h ▸ .refl d
  · exact grows_makeFolder hhere h

end

/-! Changes that may fail on the way -/

def settled {ε : Type} : Except (ε × Disk) Disk → Disk
  | .ok d => d
  | .error e => e.2

section
variable {ε α : Type} {d : Disk}

theorem grows_attempt {change : Disk → Except FileError Disk}
    (h : ∀ d', change d = .ok d' → d.Grows d') : d.Grows (settled (d.attempt change)) := by
  rw [attempt]
  split
  · next d' hd' => exact h d' hd'
  · exact .refl d

theorem Grows.bind {run : Except (ε × Disk) Disk} {next : Disk → Except (ε × Disk) Disk}
    (h : d.Grows (settled run)) (hnext : ∀ d', d.Grows d' → d'.Grows (settled (next d'))) :
    d.Grows (settled (run >>= next)) := by
  cases run with
  | error e => exact h
  | ok d' => exact h.trans (hnext d' h)

theorem grows_foldlM {step : Disk → α → Except (ε × Disk) Disk}
    (hstep : ∀ (d : Disk) a, d.root.HasFolder d.here → d.Grows (settled (step d a)))
    (hhere : d.root.HasFolder d.here) (as : List α) : d.Grows (settled (as.foldlM step d)) := by
  induction as generalizing d with
  | nil => exact .refl d
  | cons a as ih =>
    rw [List.foldlM_cons]
    exact (hstep d a hhere).bind fun d' hgrows => ih (hgrows.hasFolder_here hhere)

theorem grows_needFolders (hhere : d.root.HasFolder d.here) (path : String) :
    d.Grows (settled (d.needFolders path)) := by
  rw [needFolders]
  refine (grows_foldlM ?_ hhere _).bind fun d' hgrows => ?_
  · exact fun d' folder hhere' => grows_attempt fun _ => grows_fillIn hhere'
  · exact grows_attempt fun _ => grows_needFolder (hgrows.hasFolder_here hhere)

end

end Disk

end CodeAtlas
