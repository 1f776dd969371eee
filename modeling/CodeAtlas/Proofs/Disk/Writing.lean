import CodeAtlas.Proofs.Disk.Descent

/-! A file that was written is read under the same path. The path leads to the same place before
and after: no link lies on the way down to the place, so none is touched by the writing. -/

namespace CodeAtlas

namespace FileTree

theorem lookup_cons_eq_if (name other : String) (t : FileTree)
    (entries : List (String × FileTree)) :
    List.lookup other ((name, t) :: entries) =
      if other = name then some t else entries.lookup other := by
  rw [List.lookup_cons]
  by_cases h : other = name
  · simp [h]
  · rw [if_neg h, beq_false_of_ne h]

theorem lookup_setEntry (name : String) (new : FileTree) (entries : List (String × FileTree))
    (other : String) :
    (setEntry name new entries).lookup other =
      if other = name then some new else entries.lookup other := by
  induction entries with
  | nil => exact lookup_cons_eq_if name other new []
  | cons entry entries ih =>
    obtain ⟨n, t⟩ := entry
    rw [setEntry, lookup_cons_eq_if]
    split
    · next heq =>
      rw [lookup_cons_eq_if, heq]
      split <;> rfl
    · next hne =>
      rw [lookup_cons_eq_if, ih]
      split
      · next heq => rw [if_neg (heq ▸ hne)]
      · rfl

theorem child?_put (new : FileTree) (name : String) (rest : List String) (t : FileTree)
    (other : String) :
    (put new (name :: rest) t).child? other =
      if other = name then some (put new rest ((t.child? name).getD (folder [])))
      else t.child? other :=
  lookup_setEntry _ _ _ _

theorem get?_put_self (new : FileTree) (place : List String) (t : FileTree) :
    (put new place t).get? place = some new := by
  induction place generalizing t with
  | nil => rfl
  | cons name rest ih =>
    rw [get?, child?_put, if_pos rfl]
    exact ih _

def HasFolder (t : FileTree) (place : List String) : Prop :=
  ∃ entries, t.get? place = some (folder entries)

theorem hasFolder_put (new : FileTree) {place above : List String} (t : FileTree)
    (h : above <+: place) (hne : above ≠ place) : (put new place t).HasFolder above := by
  induction place generalizing t above with
  | nil => exact absurd (List.prefix_nil.1 h) hne
  | cons name rest ih =>
    cases above with
    | nil => exact ⟨_, rfl⟩
    | cons first above =>
      obtain ⟨rfl, hrest⟩ := List.cons_prefix_cons.1 h
      rw [HasFolder, get?, child?_put, if_pos rfl]
      exact ih _ hrest fun heq => hne (heq ▸ rfl)

theorem get?_put_beside (new : FileTree) {place other : List String} (t : FileTree)
    (habove : ¬ other <+: place) (hbelow : ¬ place <+: other) :
    (put new place t).get? other = t.get? other := by
  induction place generalizing t other with
  | nil => exact absurd List.nil_prefix hbelow
  | cons name rest ih =>
    cases other with
    | nil => exact absurd List.nil_prefix habove
    | cons first other =>
      rw [get?, get?, child?_put]
      split
      · next heq =>
        subst heq
        have habove' : ¬ other <+: rest := fun h => habove (List.cons_prefix_cons.2 ⟨rfl, h⟩)
        have hbelow' : ¬ rest <+: other := fun h => hbelow (List.cons_prefix_cons.2 ⟨rfl, h⟩)
        rw [Option.bind_some, ih _ habove' hbelow']
        cases t.child? first with
        | some below => rfl
        | none =>
          cases other with
          | nil => exact absurd List.nil_prefix habove'
          | cons second other => rfl
      · rfl

theorem hasFolder_of_prefix {t found : FileTree} {place above : List String}
    (hfound : t.get? place = some found) (h : above <+: place) (hne : above ≠ place) :
    t.HasFolder above := by
  induction above generalizing t place with
  | nil =>
    cases place with
    | nil => exact absurd rfl hne
    | cons name rest =>
      cases t with
      | folder entries => exact ⟨entries, rfl⟩
      | file bytes => cases hfound
      | link target => cases hfound
  | cons first above ih =>
    obtain ⟨rest, rfl⟩ := h
    rw [List.cons_append, get?] at hfound
    obtain ⟨below, hbelow, hfound⟩ := Option.bind_eq_some_iff.1 hfound
    rw [HasFolder, get?, hbelow]
    exact ih hfound (List.prefix_append above rest) fun heq => hne (congrArg (first :: ·) heq)

theorem HasFolder.of_prefix {t : FileTree} {place above : List String} (hplace : t.HasFolder place)
    (h : above <+: place) : t.HasFolder above := by
  by_cases heq : above = place
  · exact heq ▸ hplace
  · obtain ⟨entries, hentries⟩ := hplace
    exact hasFolder_of_prefix hentries h heq

end FileTree

namespace Disk

def IsLooked (name : String) : Prop := name ≠ "." ∧ name ≠ ".."

inductive Leads (root : FileTree) (place : List String) : Nat → List String → List String → Prop
  | done (links : Nat) : Leads root place links place []
  | dot {links : Nat} {here rest : List String} (h : Leads root place links here rest) :
    Leads root place links here ("." :: rest)
  | up {links : Nat} {here rest : List String} (h : Leads root place links here.dropLast rest) :
    Leads root place links here (".." :: rest)
  | folder {links : Nat} {here rest : List String} {name : String}
    {inside : List (String × FileTree)} (hname : IsLooked name)
    (hfound : lookUp root here name = .ok (some (.folder inside)))
    (h : Leads root place links (here ++ [name]) rest) : Leads root place links here (name :: rest)
  | file {links : Nat} {here : List String} {name : String} {bytes : List UInt8}
    (hname : IsLooked name) (hfound : lookUp root here name = .ok (some (.file bytes)))
    (hplace : here ++ [name] = place) : Leads root place links here [name]
  | link {links : Nat} {here rest : List String} {name target : String} (hname : IsLooked name)
    (hfound : lookUp root here name = .ok (some (.link target)))
    (h : Leads root place links (if Path.isAbsolute target then [] else here)
      (steps target ++ rest)) : Leads root place (links + 1) here (name :: rest)

theorem leads_of_follow {root : FileTree} {place : List String} (links : Nat)
    (here todo : List String) (h : follow root links here todo = .ok place) :
    Leads root place links here todo := by
  induction links, here, todo using follow.induct root with
  | case1 links here =>
    rw [follow] at h
    exact Except.ok.inj h ▸ .done links
  | case2 links here rest ih =>
    rw [follow, if_pos rfl] at h
    exact .dot (ih h)
  | case3 links here rest hdot ih =>
    rw [follow, if_neg hdot, if_pos rfl] at h
    exact .up (ih h)
  | case4 links here name rest hdot hup cause hfound =>
    rw [follow, if_neg hdot, if_neg hup, hfound] at h
    cases h
  | case5 links here name rest hdot hup hfound =>
    rw [follow, if_neg hdot, if_neg hup, hfound] at h
    cases h
  | case6 links here name rest hdot hup inside hfound ih =>
    rw [follow, if_neg hdot, if_neg hup, hfound] at h
    exact .folder ⟨hdot, hup⟩ hfound (ih h)
  | case7 links here name rest hdot hup bytes hfound hrest =>
    rw [follow, if_neg hdot, if_neg hup, hfound] at h
    dsimp only at h
    rw [if_pos hrest] at h
    obtain rfl := List.isEmpty_iff.1 hrest
    exact .file ⟨hdot, hup⟩ hfound (Except.ok.inj h)
  | case8 links here name rest hdot hup bytes hfound hrest =>
    rw [follow, if_neg hdot, if_neg hup, hfound] at h
    dsimp only at h
    rw [if_neg hrest] at h
    cases h
  | case9 here name rest hdot hup target hfound =>
    rw [follow, if_neg hdot, if_neg hup, hfound] at h
    cases h
  | case10 here name rest hdot hup target hfound n ih =>
    rw [follow, if_neg hdot, if_neg hup, hfound] at h
    exact .link ⟨hdot, hup⟩ hfound (ih h)

theorem Leads.follow_eq {root : FileTree} {place : List String} {links : Nat}
    {here todo : List String} (h : Leads root place links here todo) :
    follow root links here todo = .ok place := by
  induction h with
  | done links => rw [follow]
  | dot _ ih => rw [follow, if_pos rfl, ih]
  | up _ ih => rw [follow, if_neg (by decide), if_pos rfl, ih]
  | folder hname hfound _ ih =>
    rw [follow, if_neg hname.1, if_neg hname.2, hfound]
    exact ih
  | file hname hfound hplace =>
    rw [follow, if_neg hname.1, if_neg hname.2, hfound]
    exact congrArg Except.ok hplace
  | link hname hfound _ ih =>
    rw [follow, if_neg hname.1, if_neg hname.2, hfound]
    exact ih

section
variable {root : FileTree} {place here todo above : List String} {links : Nat}

/-- Of the places above the one that steps lead to, none is a link, unless the steps start below. -/
theorem Leads.not_link_of_prefix (h : Leads root place links here todo) (habove : above <+: place)
    (target : String) (hlink : root.get? above = some (.link target)) : above <+: here := by
  have hconcat {here : List String} {name : String} {t : FileTree}
      (hfound : lookUp root here name = .ok (some t)) (ht : t ≠ .link target)
      (h : above <+: here ++ [name]) : above <+: here := by
    rcases List.prefix_concat_iff.1 h with heq | h
    · rw [heq, get?_of_lookUp hfound] at hlink
      exact absurd (Option.some.inj hlink) ht
    · exact h
  induction h with
  | done links => exact habove
  | dot _ ih => exact ih
  | up _ ih => exact ih.trans (List.dropLast_prefix _)
  | folder _ hfound _ ih => exact hconcat hfound nofun ih
  | file _ hfound hplace => exact hconcat hfound nofun (hplace ▸ habove)
  | link _ hfound _ ih =>
    split at ih
    · exact ih.trans List.nil_prefix
    · exact ih

theorem Leads.exists_of_hasFolder (h : Leads root place links here todo)
    (hhere : root.HasFolder here) :
    ∃ found, root.get? place = some found ∧ ∀ target, found ≠ .link target := by
  induction h with
  | done links =>
    obtain ⟨entries, hentries⟩ := hhere
    exact ⟨_, hentries, nofun⟩
  | dot _ ih => exact ih hhere
  | up _ ih => exact ih (hhere.of_prefix (List.dropLast_prefix _))
  | folder _ hfound _ ih => exact ih ⟨_, get?_of_lookUp hfound⟩
  | file _ hfound hplace =>
    refine ⟨_, hplace ▸ get?_of_lookUp hfound, ?_⟩
    nofun
  | link _ hfound _ ih =>
    apply ih
    split
    · exact hhere.of_prefix List.nil_prefix
    · exact hhere

theorem lookUp_of_lookUp {name : String} {found : Option FileTree}
    (h : lookUp root here name = .ok found) (other : FileTree) :
    lookUp other here name = .ok (other.get? (here ++ [name])) := by
  unfold lookUp at h ⊢
  split at h
  · cases h
  · next hlong => rw [if_neg hlong]

def IsFree (root : FileTree) (place : List String) : Prop :=
  ∀ found, root.get? place = some found → ∃ bytes, found = .file bytes

theorem IsFree.not_hasFolder (h : IsFree root place) : ¬ root.HasFolder place := by
  rintro ⟨entries, hentries⟩
  obtain ⟨bytes, hbytes⟩ := h _ hentries
  cases hbytes

theorem IsFree.hasFolder_put (h : IsFree root place) (bytes : List UInt8) {other : List String}
    (hother : root.HasFolder other) : (FileTree.put (.file bytes) place root).HasFolder other := by
  have hne : other ≠ place := fun heq => h.not_hasFolder (heq ▸ hother)
  by_cases habove : other <+: place
  · exact FileTree.hasFolder_put _ _ habove hne
  · have hbelow : ¬ place <+: other := fun hbelow => h.not_hasFolder (hother.of_prefix hbelow)
    obtain ⟨entries, hentries⟩ := hother
    exact ⟨entries, (FileTree.get?_put_beside _ _ habove hbelow).trans hentries⟩

theorem Leads.not_prefix_of_link {goal : List String} {name target : String}
    (h : Leads root goal links (if Path.isAbsolute target then [] else here) todo)
    (hlast : place.dropLast <+: goal) (hplace : IsFree root place)
    (hlink : root.get? (here ++ [name]) = some (.link target)) :
    ¬ here ++ [name] <+: place ∧ ¬ place <+: here ++ [name] := by
  have habove : ¬ here ++ [name] <+: place := by
    intro habove
    have hne : here ++ [name] ≠ place := by
      intro heq
      obtain ⟨bytes, hbytes⟩ := hplace _ (heq ▸ hlink)
      cases hbytes
    have hlength : (here ++ [name]).length < place.length :=
      Nat.lt_of_le_of_ne habove.length_le fun heq => hne (habove.eq_of_length heq)
    have hfront : here ++ [name] <+: place.dropLast :=
      List.prefix_of_prefix_length_le habove (List.dropLast_prefix place) (by
        rw [List.length_dropLast]
        omega)
    have hstart := (h.not_link_of_prefix (hfront.trans hlast) target hlink).length_le
    rw [List.length_append, List.length_singleton] at hstart
    split at hstart
    · cases hstart
    · omega
  refine ⟨habove, fun hbelow => ?_⟩
  by_cases heq : place = here ++ [name]
  · exact habove (heq ▸ List.prefix_rfl)
  · exact hplace.not_hasFolder (FileTree.hasFolder_of_prefix hlink hbelow heq)

/-- Steps to a place, or to the folder of the place, lead there after a file is written to the
place. -/
theorem Leads.put_file {goal : List String} (h : Leads root goal links here todo)
    (hgoal : goal <+: place) (hlast : place.dropLast <+: goal) (hplace : IsFree root place)
    (bytes : List UInt8) :
    Leads (.put (.file bytes) place root) goal links here todo := by
  induction h with
  | done links => exact .done links
  | dot _ ih => exact .dot ih
  | up _ ih => exact .up ih
  | folder hname hfound _ ih =>
    obtain ⟨inside, hinside⟩ := hplace.hasFolder_put bytes ⟨_, get?_of_lookUp hfound⟩
    exact .folder hname ((lookUp_of_lookUp hfound _).trans (congrArg _ hinside)) ih
  | @file links here name old hname hfound hend =>
    have hnow := lookUp_of_lookUp hfound (.put (.file bytes) place root)
    by_cases heq : here ++ [name] = place
    · rw [heq, FileTree.get?_put_self] at hnow
      exact .file hname hnow hend
    -- The file makes way for a folder on the way down to the place.
    · obtain ⟨inside, hinside⟩ := FileTree.hasFolder_put (.file bytes) root (hend ▸ hgoal) heq
      rw [hinside] at hnow
      exact .folder hname hnow (hend ▸ .done links)
  | @link links here rest name target hname hfound hrest ih =>
    have hlink := get?_of_lookUp hfound
    obtain ⟨habove, hbelow⟩ := hrest.not_prefix_of_link hlast hplace hlink
    have hnow := lookUp_of_lookUp hfound (.put (.file bytes) place root)
    rw [FileTree.get?_put_beside _ _ habove hbelow, hlink] at hnow
    exact .link hname hnow ih

end

section
variable {d : Disk} {path : String} {place : List String}

theorem locateEnd_eq_ok {folder : List String} {name : String}
    (h : d.locateEnd path = .ok (folder, some name)) :
    checkPath path = .ok () ∧ IsLooked name ∧ (names path).getLast? = some name ∧
      follow d.root maxLinks (d.start path) ((names path).dropLast ++ ["."]) = .ok folder := by
  unfold locateEnd at h
  cases hcheck : checkPath path with
  | error cause => simp [hcheck, bind, Except.bind] at h
  | ok =>
    cases hfollow : follow d.root maxLinks (d.start path) ((names path).dropLast ++ ["."]) with
    | error cause => simp [hcheck, hfollow, bind, Except.bind] at h
    | ok reached =>
      cases hlast : (names path).getLast? with
      | none => simp [hcheck, hfollow, hlast, bind, Except.bind, pure, Except.pure] at h
      | some last =>
        simp only [hcheck, hfollow, hlast, bind, Except.bind, pure, Except.pure, Except.ok.injEq,
          Prod.mk.injEq] at h
        obtain ⟨rfl, hname⟩ := h
        split at hname
        · cases hname
        · next hdots =>
          obtain rfl := Option.some.inj hname
          exact ⟨rfl, not_or.1 hdots, rfl, rfl⟩

theorem placeToWrite_eq_ok (h : d.placeToWrite path = .ok place) :
    Path.endsInSlash path = false ∧
      ∃ folder name found, d.locateEnd path = .ok (folder, some name) ∧
        lookUp d.root folder name = .ok found ∧
          ((∃ target, found = some (.link target)) ∧ d.locate path = .ok place ∧
              ¬ d.root.HasFolder place ∨
            place = folder ++ [name] ∧ IsFree d.root place) := by
  unfold placeToWrite at h
  cases hend : d.locateEnd path with
  | error cause => simp [hend, bind, Except.bind] at h
  | ok reached =>
    obtain ⟨folder, last⟩ := reached
    cases last with
    | none => simp [hend, bind, Except.bind, throw, throwThe, MonadExceptOf.throw] at h
    | some name =>
      by_cases hslash : Path.endsInSlash path
      · simp [hend, hslash, bind, Except.bind, throw, throwThe, MonadExceptOf.throw] at h
      · cases hfound : lookUp d.root folder name with
        | error cause => simp [hend, hslash, hfound, bind, Except.bind] at h
        | ok found =>
          refine ⟨Bool.eq_false_iff.2 hslash, folder, name, found, rfl, hfound, ?_⟩
          simp only [hend, hslash, hfound, bind, Except.bind, pure, Except.pure, throw, throwThe,
            MonadExceptOf.throw, Bool.false_eq_true, if_false] at h
          have hget := get?_of_lookUp hfound
          cases found with
          | none =>
            obtain rfl := Except.ok.inj h
            exact .inr ⟨rfl, fun t ht => by simp [hget] at ht⟩
          | some t =>
            cases t with
            | folder entries => cases h
            | file bytes =>
              obtain rfl := Except.ok.inj h
              exact .inr ⟨rfl, fun t ht => ⟨bytes, by simp_all⟩⟩
            | link target =>
              dsimp only at h
              cases hlocate : d.locate path with
              | error cause => simp [hlocate] at h
              | ok goal =>
                rw [hlocate] at h
                dsimp only at h
                split at h
                · cases h
                · next hfolder =>
                  obtain rfl := Except.ok.inj h
                  refine .inl ⟨⟨target, rfl⟩, rfl, ?_⟩
                  rintro ⟨entries, hentries⟩
                  exact hfolder (by rw [hentries]; rfl)

theorem steps_of_getLast? {name : String} (hslash : Path.endsInSlash path = false)
    (h : (names path).getLast? = some name) : steps path = (names path).dropLast ++ [name] := by
  rw [steps, hslash, if_neg (by decide), List.append_nil]
  obtain ⟨front, hfront⟩ := List.getLast?_eq_some_iff.1 h
  rw [hfront, List.dropLast_concat]

theorem locate_eq_ok (h : d.locate path = .ok place) :
    follow d.root maxLinks (d.start path) (steps path) = .ok place := by
  unfold locate at h
  cases hcheck : checkPath path with
  | error cause => simp [hcheck, bind, Except.bind] at h
  | ok => simpa [hcheck, bind, Except.bind] using h

theorem follow_put_file (h : d.placeToWrite path = .ok place) (bytes : List UInt8) :
    follow (.put (.file bytes) place d.root) maxLinks (d.start path) (steps path) = .ok place := by
  obtain ⟨hslash, folder, name, found, hend, hfound, hcases⟩ := placeToWrite_eq_ok h
  obtain ⟨-, hname, hlast, hfolder⟩ := locateEnd_eq_ok hend
  have hsteps := steps_of_getLast? hslash hlast
  have hdot : ∀ step ∈ ["."], step = "." := fun step => List.mem_singleton.1
  rcases hcases with ⟨⟨target, rfl⟩, hlocate, hnot⟩ | ⟨rfl, hfree⟩
  · have hleads := locate_eq_ok hlocate
    -- The link is in a folder, so what it leads to is there.
    have hreal : d.root.HasFolder folder :=
      FileTree.hasFolder_of_prefix (get?_of_lookUp hfound) (List.prefix_append _ _) (by simp)
    obtain ⟨entries, hentries⟩ := hreal
    obtain ⟨left, hleft⟩ := follow_append hdot hentries [name] _ _ _ hfolder
    have hfree : IsFree d.root place := by
      intro t ht
      obtain ⟨t', ht', hlink⟩ := (leads_of_follow left folder [name]
        (by rw [← hleft, ← hsteps, hleads])).exists_of_hasFolder ⟨entries, hentries⟩
      obtain rfl := Option.some.inj (ht.symm.trans ht')
      cases t with
      | file bytes => exact ⟨bytes, rfl⟩
      | link target => exact absurd rfl (hlink target)
      | folder inside => exact absurd ⟨inside, ht⟩ hnot
    exact ((leads_of_follow _ _ _ hleads).put_file List.prefix_rfl (List.dropLast_prefix place)
      hfree bytes).follow_eq
  · have hleads := (leads_of_follow _ _ _ hfolder).put_file (List.prefix_append folder [name])
      (List.dropLast_concat.symm ▸ List.prefix_rfl) hfree bytes
    obtain ⟨entries, hentries⟩ := FileTree.hasFolder_put (.file bytes) d.root
      (List.prefix_append folder [name]) (by simp)
    obtain ⟨left, hleft⟩ := follow_append hdot hentries [name] _ _ _ hleads.follow_eq
    have hthere := lookUp_of_lookUp hfound (.put (.file bytes) (folder ++ [name]) d.root)
    rw [FileTree.get?_put_self] at hthere
    rw [hsteps, hleft]
    exact (Leads.file hname hthere rfl).follow_eq

theorem exists_write_iff {bytes : List UInt8} :
    (∃ d', d.write path bytes = .ok d') ↔ ∃ place, d.placeToWrite path = .ok place := by
  unfold write
  cases d.placeToWrite path <;> simp

theorem read_of_write {d' : Disk} {bytes : List UInt8} (h : d.write path bytes = .ok d') :
    d'.read path = .ok bytes := by
  unfold write at h
  cases hplace : d.placeToWrite path with
  | error cause => simp [hplace] at h
  | ok place =>
    rw [hplace] at h
    obtain rfl := Except.ok.inj h
    obtain ⟨-, folder, name, found, hend, -⟩ := placeToWrite_eq_ok hplace
    have hstatus := status_of_follow (d := ⟨.put (.file bytes) place d.root, d.here⟩)
      (locateEnd_eq_ok hend).1 (follow_put_file hplace bytes) (FileTree.get?_put_self _ _ _)
    rw [read, hstatus]

end

end Disk

end CodeAtlas
