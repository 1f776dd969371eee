import CodeAtlas.Proofs.Disk.Reach
import CodeAtlas.Proofs.Disk.Writing

/-! What becomes of a disk when a file is taken away. A path whose way does not come upon the file
leads where it led before, and finds there what it found. -/

namespace CodeAtlas

namespace FileTree

inductive Remains (keep : String → Prop) : Option FileTree → Option FileTree → Prop
  | nothing : Remains keep none none
  | file (bytes : List UInt8) : Remains keep (some (.file bytes)) (some (.file bytes))
  | link (target : String) : Remains keep (some (.link target)) (some (.link target))
  | folder {entries left : List (String × FileTree)}
    (h : ∀ name, name ∈ left.map Prod.fst ↔ name ∈ entries.map Prod.fst ∧ keep name) :
    Remains keep (some (.folder entries)) (some (.folder left))

theorem Remains.refl {keep : String → Prop} (h : ∀ name, keep name) (found : Option FileTree) :
    Remains keep found found := by
  cases found with
  | none => exact .nothing
  | some t =>
    cases t with
    | file bytes => exact .file bytes
    | link target => exact .link target
    | folder entries => exact .folder fun name => (and_iff_left (h name)).symm

theorem lookup_filter_ne (name other : String) (entries : List (String × FileTree)) :
    (entries.filter fun entry => entry.1 ≠ name).lookup other =
      if other = name then none else entries.lookup other := by
  induction entries with
  | nil => simp
  | cons entry entries ih =>
    obtain ⟨first, t⟩ := entry
    by_cases hfirst : first = name
    · rw [List.filter_cons_of_neg (by simpa using hfirst), ih, lookup_cons_eq_if, hfirst]
      split <;> rfl
    · rw [List.filter_cons_of_pos (by simpa using hfirst), lookup_cons_eq_if, ih, lookup_cons_eq_if]
      by_cases hother : other = first
      · rw [if_pos hother, if_neg (hother ▸ hfirst), if_pos hother]
      · rw [if_neg hother, if_neg hother]

theorem keys_setEntry {name : String} {t : FileTree} {entries : List (String × FileTree)}
    (h : entries.lookup name = some t) (new : FileTree) :
    (setEntry name new entries).map Prod.fst = entries.map Prod.fst := by
  induction entries with
  | nil => cases h
  | cons entry entries ih =>
    obtain ⟨first, t⟩ := entry
    rw [lookup_cons_eq_if] at h
    rw [setEntry]
    by_cases hfirst : first = name
    · rw [if_pos hfirst]
      rfl
    · rw [if_neg (Ne.symm hfirst)] at h
      rw [if_neg hfirst, List.map_cons, ih h, List.map_cons]

theorem erase_cons_cons {name second : String} {rest : List String} {below : FileTree}
    {entries : List (String × FileTree)} (h : entries.lookup name = some below) :
    erase (name :: second :: rest) (.folder entries) =
      .folder (setEntry name (erase (second :: rest) below) entries) := by
  rw [erase, child?, FileTree.entries, h]
  simp

theorem eq_folder_of_child? {t below : FileTree} {name : String} (h : t.child? name = some below) :
    ∃ entries, t = .folder entries ∧ entries.lookup name = some below := by
  cases t with
  | folder entries => exact ⟨entries, rfl, h⟩
  | file bytes => cases h
  | link target => cases h

theorem get?_erase_beside {place other : List String} {t removed : FileTree}
    (h : t.get? place = some removed) (hother : ¬ place <+: other) :
    Remains (fun name => other ++ [name] ≠ place) (t.get? other) ((t.erase place).get? other) := by
  induction place generalizing t other with
  | nil => exact absurd List.nil_prefix hother
  | cons name rest ih =>
    obtain ⟨below, hbelow, hrest⟩ := Option.bind_eq_some_iff.1 h
    obtain ⟨entries, rfl, hentry⟩ := eq_folder_of_child? hbelow
    cases rest with
    | nil =>
      change Remains _ _ (get? other (.folder (entries.filter fun entry => entry.1 ≠ name)))
      cases other with
      | nil =>
        refine .folder fun found => ?_
        simp only [List.mem_map, List.mem_filter]
        grind
      | cons first other =>
        have hfirst : first ≠ name := fun heq => hother (heq ▸ ⟨other, rfl⟩)
        simp only [get?, child?, FileTree.entries, lookup_filter_ne]
        rw [if_neg hfirst]
        exact .refl (by simp [hfirst]) _
    | cons second rest =>
      rw [erase_cons_cons hentry]
      cases other with
      | nil =>
        refine .folder fun found => ?_
        rw [keys_setEntry hentry]
        simp
      | cons first other =>
        simp only [get?, child?, FileTree.entries, lookup_setEntry]
        by_cases hfirst : first = name
        · subst hfirst
          rw [if_pos rfl, hentry]
          simpa using ih hrest fun hbelow => hother (List.cons_prefix_cons.2 ⟨rfl, hbelow⟩)
        · rw [if_neg hfirst]
          exact .refl (by simp [hfirst]) _

theorem get?_erase_below {place other : List String} (t : FileTree) (hplace : place ≠ [])
    (h : place <+: other) : (t.erase place).get? other = none := by
  induction place generalizing t other with
  | nil => exact absurd rfl hplace
  | cons name rest ih =>
    obtain ⟨more, rfl⟩ := h
    cases rest with
    | nil =>
      simp only [erase, List.cons_append, get?, child?, FileTree.entries, lookup_filter_ne]
      rfl
    | cons second rest =>
      rw [List.cons_append, get?]
      cases hbelow : t.child? name with
      | none =>
        rw [erase, hbelow]
        · exact congrArg (Option.bind · _) hbelow
        · simp
      | some below =>
        obtain ⟨entries, rfl, hentry⟩ := eq_folder_of_child? hbelow
        rw [erase_cons_cons hentry, child?, FileTree.entries, lookup_setEntry, if_pos rfl]
        exact ih below (by simp) (List.prefix_append _ _)

theorem get?_erase {place other : List String} {bytes : List UInt8} {t : FileTree}
    (h : t.get? place = some (.file bytes)) (hother : other ≠ place) :
    Remains (fun name => other ++ [name] ≠ place) (t.get? other) ((t.erase place).get? other) := by
  by_cases hbelow : place <+: other
  · have hnone : t.get? other = none := by
      cases hfound : t.get? other with
      | none => rfl
      | some found =>
        obtain ⟨entries, hentries⟩ := hasFolder_of_prefix hfound hbelow (Ne.symm hother)
        rw [h] at hentries
        cases hentries
    have hleft : (t.erase place).get? other = none := by
      cases place with
      | nil => exact hnone
      | cons name rest => exact get?_erase_below t (by simp) hbelow
    rw [hnone, hleft]
    exact .nothing
  · exact get?_erase_beside h hbelow

end FileTree

namespace Disk

open FileTree (Remains get?_erase)

/-- The path leads to the place, or looks at it on its way, whether or not it gets any further. -/
def ComesUpon (d : Disk) (path : String) (place : List String) : Prop :=
  d.locate path = .ok place ∨ place ∈ way d.root maxLinks (d.start path) (steps path)

def without (d : Disk) (place : List String) : Disk := { d with root := d.root.erase place }

theorem isLooked_of_not_isHidden {name : String} (h : ¬ FileTree.isHidden name) :
    IsLooked name := by
  constructor
  all_goals
    rintro rfl
    exact h (by decide)

section
variable {root : FileTree} {place here : List String} {bytes : List UInt8} {name : String}

theorem lookUp_error {cause : FileError.Cause} (h : lookUp root here name = .error cause)
    (other : FileTree) : lookUp other here name = .error cause := by
  unfold lookUp at h ⊢
  split at h
  · next hlong => rw [if_pos hlong, h]
  · cases h

theorem lookUp_erase {found : Option FileTree} (h : root.get? place = some (.file bytes))
    (hne : place ≠ here ++ [name]) (hfound : lookUp root here name = .ok found) :
    ∃ left, lookUp (root.erase place) here name = .ok left ∧
      Remains (fun inner => here ++ [name] ++ [inner] ≠ place) found left := by
  refine ⟨_, lookUp_of_lookUp hfound _, ?_⟩
  have hremains := get?_erase h (Ne.symm hne)
  rwa [get?_of_lookUp hfound] at hremains

theorem follow_erase (h : root.get? place = some (.file bytes)) (links : Nat)
    (here todo : List String) (hway : place ∉ way root links here todo) :
    follow (root.erase place) links here todo = follow root links here todo := by
  induction links, here, todo using follow.induct root with
  | case1 links here => simp only [follow]
  | case2 links here rest ih =>
    rw [way, if_pos rfl] at hway
    rw [follow, follow, if_pos rfl, if_pos rfl, ih hway]
  | case3 links here rest hdot ih =>
    rw [way, if_neg hdot, if_pos rfl] at hway
    rw [follow, follow, if_neg hdot, if_neg hdot, if_pos rfl, if_pos rfl, ih hway]
  | case4 links here name rest hdot hup cause hfound =>
    rw [follow, follow, if_neg hdot, if_neg hdot, if_neg hup, if_neg hup, hfound,
      lookUp_error hfound]
  | case5 links here name rest hdot hup hfound
  | case7 links here name rest hdot hup bytes hfound hrest
  | case8 links here name rest hdot hup bytes hfound hrest
  | case9 here name rest hdot hup target hfound =>
    rw [way, if_neg hdot, if_neg hup, hfound, List.mem_cons, not_or] at hway
    obtain ⟨left, hleft, hremains⟩ := lookUp_erase h hway.1 hfound
    cases hremains
    rw [follow, follow, if_neg hdot, if_neg hdot, if_neg hup, if_neg hup, hfound, hleft]
  | case6 links here name rest hdot hup inside hfound ih
  | case10 here name rest hdot hup target hfound n ih =>
    rw [way, if_neg hdot, if_neg hup, hfound, List.mem_cons, not_or] at hway
    obtain ⟨left, hleft, hremains⟩ := lookUp_erase h hway.1 hfound
    cases hremains
    rw [follow, follow, if_neg hdot, if_neg hdot, if_neg hup, if_neg hup, hfound, hleft]
    exact ih hway.2

theorem Leads.eq_of_mem_way {goal todo : List String} {links : Nat}
    (h : Leads root goal links here todo) (hfile : root.get? place = some (.file bytes))
    (hway : place ∈ way root links here todo) : goal = place := by
  induction h with
  | done links =>
    rw [way] at hway
    cases hway
  | dot _ ih =>
    rw [way, if_pos rfl] at hway
    exact ih hway
  | up _ ih =>
    rw [way, if_neg (by decide), if_pos rfl] at hway
    exact ih hway
  | folder hname hfound _ ih =>
    rw [way, if_neg hname.1, if_neg hname.2, hfound] at hway
    rcases List.mem_cons.1 hway with rfl | hrest
    · rw [get?_of_lookUp hfound] at hfile
      cases hfile
    · exact ih hrest
  | file hname hfound hplace =>
    rw [way, if_neg hname.1, if_neg hname.2, hfound] at hway
    rw [← hplace, List.mem_singleton.1 hway]
  | link hname hfound _ ih =>
    rw [way, if_neg hname.1, if_neg hname.2, hfound] at hway
    rcases List.mem_cons.1 hway with rfl | hrest
    · rw [get?_of_lookUp hfound] at hfile
      cases hfile
    · exact ih hrest

end

section
variable {d : Disk} {root path name : String} {place other : List String} {bytes : List UInt8}
  {entries : List (String × FileTree)}

theorem ComesUpon.eq_of_locate (h : d.ComesUpon path place)
    (hfile : d.root.get? place = some (.file bytes)) (hlocate : d.locate path = .ok other) :
    other = place := by
  rcases h with hplace | hway
  · rw [hplace] at hlocate
    exact (Except.ok.inj hlocate).symm
  · exact (leads_of_follow _ _ _ (locate_eq_ok hlocate)).eq_of_mem_way hfile hway

theorem not_comesUpon_of_folder (hfile : d.root.get? place = some (.file bytes))
    (h : d.status path = .ok (.folder entries)) : ¬ d.ComesUpon path place := by
  intro hupon
  obtain ⟨hcheck, other, hfollow, hother⟩ := status_eq_ok h
  have hlocate : d.locate path = .ok other := by
    rw [locate, hcheck]
    exact hfollow
  rw [hupon.eq_of_locate hfile hlocate, hfile] at hother
  cases hother

theorem comesUpon_join (h : d.status path = .ok (.folder entries))
    (hlocate : d.locate path = .ok other) (hname : FileTree.isName name) (hlooked : IsLooked name) :
    d.ComesUpon (Path.join path name) (other ++ [name]) := by
  right
  obtain ⟨hcheck, place, hfollow, hplace⟩ := status_eq_ok h
  rw [locate_eq_ok hlocate] at hfollow
  obtain rfl := Except.ok.inj hfollow
  have hpath := (checkPath_eq_ok_iff.1 hcheck).2.1
  have hdots : ∀ step ∈ if Path.endsInSlash path then ["."] else [], step = "." := by
    split <;> simp
  obtain ⟨left, -, hway⟩ := follow_way_append hdots hplace [name] _ _ _ (locate_eq_ok hlocate)
  rw [start_join hpath hname, steps_join hpath hname]
  apply hway
  rw [way, if_neg hlooked.1, if_neg hlooked.2]
  exact List.mem_cons_self

theorem locate_without (hfile : d.root.get? place = some (.file bytes))
    (h : ¬ d.ComesUpon path place) : (d.without place).locate path = d.locate path := by
  have hfollow := follow_erase hfile maxLinks (d.start path) (steps path) fun hway => h (.inr hway)
  exact congrArg (fun found => checkPath path >>= fun _ => found) hfollow

/-- A path that does not come upon a file finds the same without it. Only a folder may have lost a
name, which is that of the file. -/
theorem status_without (hfile : d.root.get? place = some (.file bytes))
    (h : ¬ d.ComesUpon path place) :
    (d.without place).status path = d.status path ∨
      ∃ other entries left, d.locate path = .ok other ∧ d.status path = .ok (.folder entries) ∧
        (d.without place).status path = .ok (.folder left) ∧
        ∀ name, name ∈ left.map Prod.fst ↔
          name ∈ entries.map Prod.fst ∧ other ++ [name] ≠ place := by
  have hlocate := locate_without hfile h
  cases hplace : d.locate path with
  | error cause =>
    left
    simp only [status, hlocate, hplace, bind, Except.bind]
  | ok other =>
    have hne : other ≠ place := by
      rintro rfl
      exact h (.inl hplace)
    have hremains := get?_erase hfile hne
    have hroot : (d.without place).root = d.root.erase place := rfl
    simp only [status, hlocate, hplace, bind, Except.bind, hroot]
    generalize d.root.get? other = found, (d.root.erase place).get? other = found' at hremains ⊢
    cases hremains with
    | nothing | file bytes | link target => exact .inl rfl
    | folder hkeys => exact .inr ⟨other, _, _, rfl, rfl, rfl, hkeys⟩

theorem isFolder_without (hfile : d.root.get? place = some (.file bytes))
    (h : ¬ d.ComesUpon path place) : (d.without place).isFolder path = d.isFolder path := by
  unfold isFolder
  rcases status_without hfile h with heq | ⟨other, entries, left, -, hbefore, hafter, -⟩
  · rw [heq]
  · rw [hbefore, hafter]
    rfl

theorem read_without (hfile : d.root.get? place = some (.file bytes))
    (h : ¬ d.ComesUpon path place) : (d.without place).read path = d.read path := by
  unfold read
  rcases status_without hfile h with heq | ⟨other, entries, left, -, hbefore, hafter, -⟩
  · rw [heq]
  · rw [hbefore, hafter]

theorem reaches_without (hfile : d.root.get? place = some (.file bytes))
    (hreaches : Reaches d root path) (h : ¬ d.ComesUpon path place) :
    Reaches (d.without place) root path := by
  induction hreaches with
  | here => exact .here
  | @into path name entries _ hstatus hentry hname hhidden ih =>
    have hfolder := not_comesUpon_of_folder hfile hstatus
    have habove := ih hfolder
    rcases status_without hfile hfolder with
      heq | ⟨other, before, left, hlocate, hbefore, hafter, hkeys⟩
    · exact habove.into (heq.trans hstatus) hentry hname hhidden
    · rw [hstatus] at hbefore
      cases hbefore
      refine habove.into hafter ((hkeys name).2 ⟨hentry, ?_⟩) hname hhidden
      rintro rfl
      exact h (comesUpon_join hstatus hlocate hname (isLooked_of_not_isHidden hhidden))

theorem mem_files_without (hfile : d.root.get? place = some (.file bytes))
    (hmem : path ∈ d.files root) (h : ¬ d.ComesUpon path place) :
    path ∈ (d.without place).files root := by
  obtain ⟨hreaches, hfolder⟩ := mem_files_iff.1 hmem
  refine mem_files_iff.2 ⟨reaches_without hfile hreaches h, ?_⟩
  rwa [isFolder_without hfile h]

end

end Disk

end CodeAtlas
