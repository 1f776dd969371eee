import CodeAtlas.Proofs.Paths
import CodeAtlas.Proofs.Survey.Visits

/-! Going down from a folder by a name: the longer path takes the same steps and one more. -/

namespace CodeAtlas

theorem FileTree.get?_append_singleton (t : FileTree) (place : List String) (name : String) :
    t.get? (place ++ [name]) = (t.get? place).bind (child? name) := by
  induction place generalizing t with
  | nil => simp [get?]
  | cons first place ih =>
    rw [List.cons_append, get?, get?]
    cases t.child? first with
    | none => rfl
    | some t => exact ih t

namespace Disk

theorem names_join {path name : String} (hpath : path ≠ "") (hname : FileTree.isName name) :
    names (Path.join path name) = names path ++ [name] := by
  have hpieces := Path.pieces_of_not_mem (FileTree.isName_iff.1 hname).2
  have hne := (FileTree.isName_iff.1 hname).1
  obtain ⟨front, hstem, hfront⟩ := Path.stem_eq hpath
  have hlong : names (Path.join path name) =
      ((Path.pieces front).map String.ofList).filter (· ≠ "") ++ [name] := by
    rw [names, Path.toList_join hname, hstem, List.append_assoc, List.singleton_append,
      Path.pieces_append, hpieces]
    simp [hne]
  have hshort : names path = ((Path.pieces front).map String.ofList).filter (· ≠ "") := by
    rcases hfront with hfront | hfront
    · rw [names, hfront]
    · rw [names, hfront, Path.pieces_append]
      simp [Path.pieces]
  rw [hlong, hshort]

theorem steps_join {path name : String} (hpath : path ≠ "") (hname : FileTree.isName name) :
    steps (Path.join path name) = names path ++ [name] := by
  rw [steps, if_neg (Path.not_endsInSlash_join hname), List.append_nil, names_join hpath hname]

theorem start_join {d : Disk} {path name : String} (hpath : path ≠ "")
    (hname : FileTree.isName name) : d.start (Path.join path name) = d.start path := by
  have hhead : (Path.join path name).toList.head? = path.toList.head? := by
    obtain ⟨c, cs, hcs⟩ := List.exists_cons_of_ne_nil (mt String.toList_eq_nil_iff.1 hpath)
    rw [Path.toList_join hname, Path.stem, hcs]
    split <;> rfl
  rw [start, start, Path.isAbsolute, Path.isAbsolute, hhead]

theorem get?_of_lookUp {root : FileTree} {here : List String} {name : String}
    {found : Option FileTree} (h : lookUp root here name = .ok found) :
    root.get? (here ++ [name]) = found := by
  unfold lookUp at h
  split at h
  · cases h
  · exact Except.ok.inj h

theorem follow_dots (root : FileTree) (links : Nat) (here : List String) {dots : List String}
    (h : ∀ step ∈ dots, step = ".") : follow root links here dots = .ok here := by
  induction dots with
  | nil => rw [follow]
  | cons step dots ih =>
    obtain ⟨hstep, hdots⟩ := List.forall_mem_cons.1 h
    rw [follow, if_pos hstep, ih hdots]

def way (root : FileTree) (links : Nat) (here : List String) (todo : List String) :
    List (List String) :=
  match todo with
  | [] => []
  | name :: rest =>
    if name = "." then way root links here rest
    else if name = ".." then way root links here.dropLast rest
    else
      (here ++ [name]) ::
        match lookUp root here name with
        | .ok (some (.folder _)) => way root links (here ++ [name]) rest
        | .ok (some (.link target)) =>
          match links with
          | 0 => []
          | n + 1 => way root n (if Path.isAbsolute target then [] else here) (steps target ++ rest)
        | _ => []
termination_by (links, todo.length)

/-- Steps that lead to a folder can be followed by more, which look where they look from the folder.
The dots are what a slash at the end of a path stands for; they do not go any further. -/
theorem follow_way_append {root : FileTree} {dots place : List String}
    {entries : List (String × FileTree)} (hdots : ∀ step ∈ dots, step = ".")
    (hplace : root.get? place = some (.folder entries)) (more : List String)
    (links : Nat) (here todo : List String)
    (h : follow root links here (todo ++ dots) = .ok place) :
    ∃ left, follow root links here (todo ++ more) = follow root left place more ∧
      way root left place more ⊆ way root links here (todo ++ more) := by
  induction links, here, todo using follow.induct root with
  | case1 links here =>
    rw [List.nil_append, follow_dots root links here hdots] at h
    obtain rfl := Except.ok.inj h
    exact ⟨links, rfl, List.Subset.refl _⟩
  | case2 links here rest ih =>
    rw [List.cons_append, follow, if_pos rfl] at h ⊢
    rw [way, if_pos rfl]
    exact ih h
  | case3 links here rest hdot ih =>
    rw [List.cons_append, follow, if_neg hdot, if_pos rfl] at h ⊢
    rw [way, if_neg hdot, if_pos rfl]
    exact ih h
  | case4 links here name rest hdot hup cause hfound =>
    rw [List.cons_append, follow, if_neg hdot, if_neg hup, hfound] at h
    cases h
  | case5 links here name rest hdot hup hfound =>
    rw [List.cons_append, follow, if_neg hdot, if_neg hup, hfound] at h
    cases h
  | case6 links here name rest hdot hup inside hfound ih =>
    rw [List.cons_append, follow, if_neg hdot, if_neg hup, hfound] at h ⊢
    rw [way, if_neg hdot, if_neg hup, hfound]
    obtain ⟨left, hleft, hway⟩ := ih h
    exact ⟨left, hleft, List.subset_cons_of_subset _ hway⟩
  -- A file is no folder, and nothing comes after it.
  | case7 links here name rest hdot hup bytes hfound hrest =>
    rw [List.cons_append, follow, if_neg hdot, if_neg hup, hfound] at h
    dsimp only at h
    split at h
    · obtain rfl := Except.ok.inj h
      rw [get?_of_lookUp hfound] at hplace
      cases hplace
    · cases h
  | case8 links here name rest hdot hup bytes hfound hrest =>
    rw [List.cons_append, follow, if_neg hdot, if_neg hup, hfound] at h
    dsimp only at h
    split at h
    · next hempty => simp_all
    · cases h
  | case9 here name rest hdot hup target hfound =>
    rw [List.cons_append, follow, if_neg hdot, if_neg hup, hfound] at h
    cases h
  | case10 here name rest hdot hup target hfound n ih =>
    rw [List.cons_append, follow, if_neg hdot, if_neg hup, hfound] at h ⊢
    rw [way, if_neg hdot, if_neg hup, hfound]
    dsimp only at h ⊢
    rw [← List.append_assoc] at h ⊢
    obtain ⟨left, hleft, hway⟩ := ih h
    exact ⟨left, hleft, List.subset_cons_of_subset _ hway⟩

theorem follow_append {root : FileTree} {dots place : List String}
    {entries : List (String × FileTree)} (hdots : ∀ step ∈ dots, step = ".")
    (hplace : root.get? place = some (.folder entries)) (more : List String)
    (links : Nat) (here todo : List String)
    (h : follow root links here (todo ++ dots) = .ok place) :
    ∃ left, follow root links here (todo ++ more) = follow root left place more := by
  obtain ⟨left, hleft, -⟩ := follow_way_append hdots hplace more links here todo h
  exact ⟨left, hleft⟩

theorem checkPath_eq_ok_iff {path : String} :
    checkPath path = .ok () ↔
      '\x00' ∉ path.toList ∧ path ≠ "" ∧ path.utf8ByteSize ≤ maxPath := by
  unfold checkPath
  split
  · simp_all
  · split
    · simp_all
    · split <;> simp_all

theorem status_eq_ok {d : Disk} {path : String} {t : FileTree} (h : d.status path = .ok t) :
    checkPath path = .ok () ∧
      ∃ place, follow d.root maxLinks (d.start path) (steps path) = .ok place ∧
        d.root.get? place = some t := by
  unfold status locate at h
  cases hcheck : checkPath path with
  | error cause => simp [hcheck, bind, Except.bind] at h
  | ok =>
    cases hfollow : follow d.root maxLinks (d.start path) (steps path) with
    | error cause => simp [hcheck, hfollow, bind, Except.bind] at h
    | ok place =>
      refine ⟨rfl, place, rfl, ?_⟩
      cases hget : d.root.get? place with
      | none => simp [hcheck, hfollow, hget, bind, Except.bind, throw, throwThe,
          MonadExceptOf.throw] at h
      | some found =>
        simp only [hcheck, hfollow, hget, bind, Except.bind, pure, Except.pure] at h
        exact congrArg some (Except.ok.inj h)

variable {d : Disk} {path name : String} {entries : List (String × FileTree)}

theorem follow_join (h : d.status path = .ok (.folder entries)) (hname : FileTree.isName name) :
    ∃ left place, d.root.get? place = some (.folder entries) ∧
      follow d.root maxLinks (d.start (Path.join path name)) (steps (Path.join path name)) =
        follow d.root left place [name] := by
  obtain ⟨hcheck, place, hfollow, hplace⟩ := status_eq_ok h
  have hpath := (checkPath_eq_ok_iff.1 hcheck).2.1
  have hdots : ∀ step ∈ if Path.endsInSlash path then ["."] else [], step = "." := by
    split <;> simp
  obtain ⟨left, hleft⟩ := follow_append hdots hplace [name] _ _ _ hfollow
  rw [start_join hpath hname, steps_join hpath hname]
  exact ⟨left, place, hplace, hleft⟩

theorem checkPath_join (h : d.status path = .ok (.folder entries)) (hname : FileTree.isName name)
    (hnull : '\x00' ∉ name.toList) (hsize : (Path.join path name).utf8ByteSize ≤ maxPath) :
    checkPath (Path.join path name) = .ok () := by
  obtain ⟨hpath, hempty, -⟩ := checkPath_eq_ok_iff.1 (status_eq_ok h).1
  have hlist : (Path.join path name).toList = Path.stem path ++ name.toList :=
    Path.toList_join hname
  refine checkPath_eq_ok_iff.2 ⟨?_, ?_, hsize⟩
  · rw [hlist, List.mem_append, not_or]
    refine ⟨?_, hnull⟩
    unfold Path.stem
    split <;> simp [hpath]
  · intro hjoin
    rw [hjoin] at hlist
    exact (FileTree.isName_iff.1 hname).1 (by simpa using (List.append_eq_nil_iff.1 hlist.symm).2)

theorem status_join {t : FileTree} (h : d.status path = .ok (.folder entries))
    (hname : FileTree.isName name) (hdots : name ≠ "." ∧ name ≠ "..")
    (hnull : '\x00' ∉ name.toList) (hlong : name.utf8ByteSize ≤ maxName)
    (hsize : (Path.join path name).utf8ByteSize ≤ maxPath)
    (hchild : entries.lookup name = some t) (hlink : ∀ target, t ≠ .link target) :
    d.status (Path.join path name) = .ok t := by
  obtain ⟨left, place, hplace, hfollow⟩ := follow_join h hname
  have hget : d.root.get? (place ++ [name]) = some t := by
    rw [FileTree.get?_append_singleton, hplace]
    exact hchild
  have hfound : lookUp d.root place name = .ok (some t) := by
    rw [lookUp, if_neg (Nat.not_lt.2 hlong), hget]
  have hstep : follow d.root left place [name] = .ok (place ++ [name]) := by
    rw [follow, if_neg hdots.1, if_neg hdots.2, hfound]
    cases t with
    | file bytes => rfl
    | folder inside => simp only [follow]
    | link target => exact absurd rfl (hlink target)
  exact status_of_follow (checkPath_join h hname hnull hsize) (hfollow.trans hstep) hget

theorem status_join_dot (h : d.status path = .ok (.folder entries))
    (hsize : (Path.join path ".").utf8ByteSize ≤ maxPath) :
    d.status (Path.join path ".") = .ok (.folder entries) := by
  have hname : FileTree.isName "." := by decide
  obtain ⟨left, place, hplace, hfollow⟩ := follow_join h hname
  refine status_of_follow (checkPath_join h hname (by decide) hsize) ?_ hplace
  rw [hfollow, follow_dots d.root left place (by simp)]

end Disk

end CodeAtlas
