import CodeAtlas.Proofs.Disk.Growth
import CodeAtlas.Proofs.Upshot
import CodeAtlas.WebPage.Page

/-! What a run of the page leaves on the disk. The upload and the folder for its content are taken
away at the very end, and the folder also when the pipeline cannot be run. Every other failure
leaves what was there when it came. -/

namespace CodeAtlas.WebPage

open Child (Scene Ending Outcome)
open Disk (settled)

/-! Unpacking -/

theorem settled_ofFile (result : Except (FileError × Disk) Disk) :
    settled (UnpackError.ofFile result) = settled result := by
  cases result <;> rfl

theorem grows_unpackFile {d : Disk} (hhere : d.root.HasFolder d.here) (path : String)
    (m : Member) : d.Grows (settled (unpackFile path d m)) := by
  have hwrite (bytes : List UInt8) :
      d.Grows (settled (UnpackError.ofFile (d.attempt fun d => d.write path bytes))) := by
    rw [settled_ofFile]
    exact Disk.grows_attempt fun d' h => Disk.grows_write hhere h
  unfold unpackFile
  split
  · exact hwrite m.bytes
  · exact .refl d
  · exact (hwrite _).bind fun d' _ => .refl d'

theorem grows_unpack {d : Disk} (hhere : d.root.HasFolder d.here) (folder : String) (m : Member) :
    d.Grows (settled (unpack folder d m)) := by
  have hmember (d' : Disk) (hgrows : d.Grows d') :
      d'.Grows (settled (if m.name = "" then .error (.nameless, d') else
        if m.isFolder then
          UnpackError.ofFile (d'.attempt fun d => d.needFolder (memberPath folder m.name))
        else unpackFile (memberPath folder m.name) d' m)) := by
    have hhere' := hgrows.hasFolder_here hhere
    split
    · exact .refl d'
    · split
      · rw [settled_ofFile]
        exact Disk.grows_attempt fun d'' h => Disk.grows_needFolder hhere' h
      · exact grows_unpackFile hhere' _ m
  unfold unpack
  dsimp only
  split
  · exact hmember d (.refl d)
  · refine Disk.Grows.bind ?_ hmember
    rw [settled_ofFile]
    exact Disk.grows_needFolders hhere _

theorem grows_unpackAll {d : Disk} (hhere : d.root.HasFolder d.here) (folder : String)
    (members : Archive) : d.Grows (settled (unpackAll folder d members)) :=
  Disk.grows_foldlM (fun _ m hhere' => grows_unpack hhere' folder m) hhere members

/-! Runs of the page -/

/-- A run from a scene comes to a result and ends in a scene, whatever the page shows. -/
def RunsTo {α : Type} (run : Run α) (s : Scene) (result : Except Failure α) (later : Scene) :
    Prop :=
  ∀ shown, ∃ shown', upshot run ⟨s, shown⟩ = (result, ⟨later, shown'⟩)

section
variable {α β : Type} {run : Run α} {next : α → Run β} {s mid later : Scene}

theorem RunsTo.bind {a : α} {result : Except Failure β} (h : RunsTo run s (.ok a) mid)
    (hnext : RunsTo (next a) mid result later) : RunsTo (run >>= next) s result later := by
  intro shown
  obtain ⟨between, hrun⟩ := h shown
  obtain ⟨last, hlast⟩ := hnext between
  exact ⟨last, (upshot_bind_ok hrun next).trans hlast⟩

theorem RunsTo.fail {failure : Failure} (h : RunsTo run s (.error failure) later)
    (next : α → Run β) : RunsTo (run >>= next) s (.error failure) later := by
  intro shown
  obtain ⟨last, hrun⟩ := h shown
  exact ⟨last, upshot_bind_error hrun next⟩

theorem runsTo_pure (a : α) (s : Scene) : RunsTo (pure a) s (.ok a) s := fun shown => ⟨shown, rfl⟩

theorem runsTo_throw (failure : Failure) (s : Scene) :
    RunsTo (throw failure : Run α) s (.error failure) s :=
  fun shown => ⟨shown, rfl⟩

theorem runsTo_add (e : Element) (s : Scene) : RunsTo (add e) s (.ok ()) s :=
  fun shown => ⟨shown ++ [e], rfl⟩

theorem runsTo_addAll (es : List Element) (s : Scene) : RunsTo (addAll es) s (.ok ()) s :=
  fun shown => ⟨shown ++ es, rfl⟩

theorem runsTo_disk (s : Scene) : RunsTo disk s (.ok s.disk) s := fun shown => ⟨shown, rfl⟩

theorem runsTo_setDisk (d : Disk) (s : Scene) :
    RunsTo (setDisk d) s (.ok ()) { s with disk := d } :=
  fun shown => ⟨shown, rfl⟩

end

def afterTidy (change : Disk → Except FileError Disk) (d : Disk) : Disk :=
  (change d).toOption.getD d

theorem runsTo_tidy (change : Disk → Except FileError Disk) (s : Scene) :
    RunsTo (tidy change) s (.ok ()) { s with disk := afterTidy change s.disk } := by
  refine (runsTo_disk s).bind ?_
  rw [afterTidy]
  cases change s.disk with
  | ok d => exact runsTo_setDisk d s
  | error e => exact runsTo_pure () s

theorem runsTo_unpackUpload {p : Places} {members : Archive} {s : Scene} {d : Disk}
    (h : unpackAll p.unpacked s.disk members = .ok d) :
    RunsTo (unpackUpload p (.archive members)) s (.ok (.ok ())) { s with disk := d } := by
  refine (runsTo_disk s).bind ?_
  rw [h]
  exact (runsTo_setDisk d s).bind (runsTo_pure _ _)

theorem runsTo_unpackUpload_broken {p : Places} {members : Archive} {s : Scene} {e : UnpackError}
    {d : Disk} (h : unpackAll p.unpacked s.disk members = .error (e, d)) :
    RunsTo (unpackUpload p (.archive members)) s (.ok (.error (.unpack e)))
      { s with disk := d } := by
  refine (runsTo_disk s).bind ?_
  rw [h]
  exact (runsTo_setDisk d s).bind (runsTo_pure _ _)

theorem runsTo_unpackUpload_foreign (p : Places) (s : Scene) :
    RunsTo (unpackUpload p .foreign) s (.ok (.error .foreignFile)) s := runsTo_pure _ s

theorem runsTo_isThere (path : String) (s : Scene) :
    RunsTo (isThere path) s ((s.disk.check path).mapError .file) s := by
  refine (runsTo_disk s).bind ?_
  cases s.disk.check path with
  | ok there => exact runsTo_pure there s
  | error e => exact runsTo_throw (.file e) s

def nextChild (s : Scene) : Outcome := s.script.headD .quiet

theorem runsTo_launch {p : Places} {words : List String} {s later : Scene}
    {result : Except Failure (Int × Option String × Option String)}
    (h : RunsTo (concludeLaunch p (nextChild s).ending)
      (s.launch ⟨.ofWords words, .capturedIn p.root⟩).2 result later) :
    RunsTo (launch p words) s result later := by
  refine (runsTo_addAll _ s).bind fun shown => ?_
  exact h shown

def Ends {α : Type} (run : Run α) (s : Scene) (result : Except Failure α) (d : Disk) : Prop :=
  ∃ later, later.disk = d ∧ RunsTo run s result later

section
variable {α β : Type} {run : Run α} {next : α → Run β} {s mid : Scene} {d : Disk}

theorem RunsTo.ends {later : Scene} {result : Except Failure α} (h : RunsTo run s result later) :
    Ends run s result later.disk := ⟨later, rfl, h⟩

theorem RunsTo.then {a : α} {result : Except Failure β} (h : RunsTo run s (.ok a) mid)
    (hnext : Ends (next a) mid result d) : Ends (run >>= next) s result d := by
  obtain ⟨later, hdisk, hlater⟩ := hnext
  exact ⟨later, hdisk, h.bind hlater⟩

end

def CanLook (p : Places) (d : Disk) : Prop :=
  ∀ path ∈ [p.readme, p.html, p.docs], ∃ there, d.check path = .ok there

def afterCleanUp (p : Places) (d : Disk) : Disk :=
  (afterTidy (fun d => d.remove p.upload) d).removeAll p.unpacked

theorem runsTo_cleanUp (p : Places) (s : Scene) :
    RunsTo (cleanUp p) s (.ok ()) { s with disk := afterCleanUp p s.disk } :=
  (runsTo_tidy _ s).bind ((runsTo_tidy _ _).bind (runsTo_add _ _))

theorem ends_part (path : String) (part : Bool → List Element) (next : Run Unit) (s : Scene) :
    (∃ there, s.disk.check path = .ok there ∧ ∀ result d, Ends next s result d →
        Ends (do addAll (part (← isThere path)); next) s result d) ∨
      ∃ e, s.disk.check path = .error e ∧
        Ends (do addAll (part (← isThere path)); next) s (.error (.file e)) s.disk := by
  have hthere := runsTo_isThere path s
  cases hcheck : s.disk.check path with
  | ok there =>
    rw [hcheck] at hthere
    exact .inl ⟨there, rfl, fun result d hnext => hthere.then ((runsTo_addAll _ s).then hnext)⟩
  | error e =>
    rw [hcheck] at hthere
    exact .inr ⟨e, rfl, (hthere.fail _).ends⟩

theorem ends_present (p : Places) (code : Int) (s : Scene) :
    CanLook p s.disk ∧ Ends (present p code) s (.ok ()) (afterCleanUp p s.disk) ∨
      ¬ CanLook p s.disk ∧ ∃ e, Ends (present p code) s (.error (.file e)) s.disk := by
  have hlost {path : String} {e : FileError} (hpath : path ∈ [p.readme, p.html, p.docs])
      (h : s.disk.check path = .error e) : ¬ CanLook p s.disk := by
    intro hlook
    obtain ⟨there, hthere⟩ := hlook path hpath
    rw [h] at hthere
    cases hthere
  have hfirst {result : Except Failure Unit} {d : Disk} {next : Disk → Run Unit}
      (hnext : Ends (next s.disk) s result d) :
      Ends (do add (verdict code); let d ← disk; next d) s result d :=
    (runsTo_add _ s).then ((runsTo_disk s).then hnext)
  rcases ends_part p.readme (readmePart s.disk p) _ s with ⟨_, hreadme, hthen⟩ | ⟨e, hreadme, hfail⟩
  · rcases ends_part p.html (htmlPart s.disk p) _ s with ⟨_, hhtml, hthen'⟩ | ⟨e, hhtml, hfail⟩
    · rcases ends_part p.docs (downloadPart s.disk p) (cleanUp p) s with
        ⟨_, hdocs, hthen''⟩ | ⟨e, hdocs, hfail⟩
      · refine .inl ⟨by simp [CanLook, hreadme, hhtml, hdocs], hfirst (hthen _ _ (hthen' _ _ ?_))⟩
        exact hthen'' _ _ (runsTo_cleanUp p s).ends
      · exact .inr ⟨hlost (by simp) hdocs, e, hfirst (hthen _ _ (hthen' _ _ hfail))⟩
    · exact .inr ⟨hlost (by simp) hhtml, e, hfirst (hthen _ _ hfail)⟩
  · exact .inr ⟨hlost (by simp) hreadme, e, hfirst hfail⟩

section
variable {p : Places} {c : Controls} {s : Scene}

theorem ends_runPipeline_refused {message : String}
    (h : (nextChild s).ending = .refused message) :
    Ends (runPipeline p c) s (.error (.refused message))
      (((nextChild s).change s.disk).removeAll p.unpacked) := by
  have hconclude (later : Scene) : RunsTo (concludeLaunch p (nextChild s).ending) later
      (.error (.refused message)) { later with disk := later.disk.removeAll p.unpacked } := by
    rw [h]
    exact (runsTo_add _ _).bind ((runsTo_tidy _ _).bind ((runsTo_add _ _).bind (runsTo_throw _ _)))
  refine (runsTo_disk s).then ((runsTo_add _ s).then ((runsTo_addAll _ s).then ?_))
  exact ⟨_, rfl, (runsTo_launch (hconclude _)).fail _⟩

theorem ends_runPipeline_ended {code : Int} {out err : Option String}
    (h : (nextChild s).ending = .ended code out err) :
    let d := (nextChild s).change s.disk
    CanLook p d ∧ Ends (runPipeline p c) s (.ok ()) (afterCleanUp p d) ∨
      ¬ CanLook p d ∧ ∃ e, Ends (runPipeline p c) s (.error (.file e)) d := by
  have hconclude (later : Scene) :
      RunsTo (concludeLaunch p (nextChild s).ending) later (.ok (code, out, err)) later := by
    rw [h]
    exact (runsTo_add _ _).bind (runsTo_pure _ _)
  have hpresent {words : List String} {result : Except Failure Unit} {d : Disk}
      (hpresent : Ends (present p code) (s.launch ⟨.ofWords words, .capturedIn p.root⟩).2 result d)
      (hwords : words = command p c (projectRoot s.disk p.unpacked)) :
      Ends (runPipeline p c) s result d := by
    subst hwords
    refine (runsTo_disk s).then ((runsTo_add _ s).then ((runsTo_addAll _ s).then ?_))
    refine (runsTo_launch (hconclude _)).then ?_
    dsimp only
    split
    · exact (runsTo_addAll _ _).then hpresent
    · exact hpresent
  intro d
  rcases ends_present p code (s.launch ⟨.ofWords _, .capturedIn p.root⟩).2 with
    ⟨hlook, hends⟩ | ⟨hlook, e, hends⟩
  · exact .inl ⟨hlook, hpresent hends rfl⟩
  · exact .inr ⟨hlook, e, hpresent hends rfl⟩

end

/-! What was uploaded -/

def withUpload (p : Places) (bytes : List UInt8) (d : Disk) : Disk :=
  afterTidy (fun d => d.write p.upload bytes) d

def withFolder (p : Places) (upload : Upload) (d : Disk) : Disk :=
  afterTidy (fun d => d.makeFolder p.unpacked) (withUpload p upload.bytes d)

section
variable {p : Places} {c : Controls} {upload : Upload} {s : Scene}

theorem ends_run_unreadable {message : String} (h : upload.content = .unreadable message) :
    Ends (run p c (some upload)) s (.error (.upload message)) (withUpload p [] s.disk) := by
  refine (runsTo_addAll _ s).then ?_
  dsimp only
  rw [receive, h]
  exact ⟨_, rfl, (runsTo_tidy _ s).bind ((runsTo_add _ _).bind (runsTo_throw _ _))⟩

theorem runsTo_listContents (content : Content) (s : Scene) :
    RunsTo (listContents content) s (.ok ()) s := by
  cases content with
  | archive members => exact runsTo_addAll _ s
  | unreadable message => exact runsTo_add _ s
  | foreign => exact runsTo_add _ s

theorem ends_run {result : Except Failure Unit} {d : Disk} (hpressed : c.generate = true)
    (hcontent : ∀ message, upload.content ≠ .unreadable message)
    (h : Ends (generate p c upload.content) { s with disk := withUpload p upload.bytes s.disk }
      result d) :
    Ends (run p c (some upload)) s result d := by
  refine (runsTo_addAll _ s).then ?_
  dsimp only
  rw [receive]
  split
  · next message hmessage => exact absurd hmessage (hcontent message)
  · refine (runsTo_tidy _ s).then ((runsTo_addAll _ _).then ?_)
    dsimp only
    rw [if_pos hpressed]
    split
    · exact (runsTo_listContents _ _).then h
    · exact h

variable {later : Scene}

theorem ends_run_broken {failure : Failure} (hpressed : c.generate = true)
    (hcontent : ∀ message, upload.content ≠ .unreadable message)
    (h : RunsTo (unpackUpload p upload.content) { s with disk := withFolder p upload s.disk }
      (.ok (.error failure)) later) :
    Ends (run p c (some upload)) s (.error failure) later.disk := by
  refine ends_run hpressed hcontent ((runsTo_tidy _ _).then ((runsTo_add _ _).then (h.then ?_)))
  exact ⟨later, rfl, (runsTo_add _ _).bind (runsTo_throw _ _)⟩

theorem ends_run_unpacked {result : Except Failure Unit} {d : Disk} (hpressed : c.generate = true)
    (hcontent : ∀ message, upload.content ≠ .unreadable message)
    (h : RunsTo (unpackUpload p upload.content) { s with disk := withFolder p upload s.disk }
      (.ok (.ok ())) later)
    (hends : Ends (runPipeline p c) later result d) : Ends (run p c (some upload)) s result d :=
  ends_run hpressed hcontent ((runsTo_tidy _ _).then ((runsTo_add _ _).then (h.then hends)))

end

/-! What is left -/

/-- The paths for the upload and its content are new, and they are not the same. -/
structure Fresh (p : Places) (d : Disk) : Prop where
  here : d.root.HasFolder d.here
  upload : ∃ place, d.placeToMake p.upload = .ok place
  unpacked : ∃ place, d.placeToMake p.unpacked = .ok place
  apart : d.placeToMake p.unpacked ≠ d.placeToMake p.upload
  isFile : Path.endsInSlash p.upload = false

/-- The disk on which the pipeline is started, if the upload is an archive that can be unpacked. -/
def started? (p : Places) (upload : Upload) (d : Disk) : Option Disk :=
  match upload.content with
  | .archive members => (unpackAll p.unpacked (withFolder p upload d) members).toOption
  | _ => none

/-- The disk that the pipeline leaves, if it is started and comes to an end. -/
def ended? (p : Places) (upload : Upload) (d : Disk) (child : Outcome) : Option Disk :=
  match child.ending with
  | .ended _ _ _ => (started? p upload d).map child.change
  | .refused _ => none

/-- The disk that the pipeline leaves, if it is started and then cannot be run to its end. -/
def refused? (p : Places) (upload : Upload) (d : Disk) (child : Outcome) : Option Disk :=
  match child.ending with
  | .ended _ _ _ => none
  | .refused _ => (started? p upload d).map child.change

section
variable {p : Places} {upload : Upload} {d : Disk}

theorem Fresh.grows_withUpload (hfresh : Fresh p d) (bytes : List UInt8) :
    d.Grows (withUpload p bytes d) ∧ (withUpload p bytes d).Holds p.upload ∧
      ∃ place, (withUpload p bytes d).placeToMake p.unpacked = .ok place := by
  obtain ⟨place, hplace⟩ := hfresh.upload
  obtain ⟨place', hplace'⟩ := hfresh.unpacked
  have hne : place' ≠ place := by
    rintro rfl
    exact hfresh.apart (hplace'.trans hplace.symm)
  have hwith : withUpload p bytes d = { d with root := .put (.file bytes) place d.root } := by
    rw [withUpload, afterTidy, Disk.write_of_placeToMake hplace hfresh.isFile]
    rfl
  rw [hwith]
  exact ⟨Disk.grows_putNew hfresh.here hplace _,
    ⟨place, Disk.placeToRemove_putNew hfresh.here hplace _⟩,
    place', Disk.placeToMake_putNew hfresh.here hplace _ hplace' hne⟩

theorem Fresh.grows_withFolder (hfresh : Fresh p d) (upload : Upload) :
    (withUpload p upload.bytes d).Grows (withFolder p upload d) ∧
      ∃ place, (withUpload p upload.bytes d).root.get? place = none ∧
        (withFolder p upload d).placeToRemove p.unpacked = .ok place := by
  obtain ⟨hgrows, -, place, hplace⟩ := hfresh.grows_withUpload upload.bytes
  have hhere := hgrows.hasFolder_here hfresh.here
  have hwith : withFolder p upload d = { withUpload p upload.bytes d with
      root := .put (.folder []) place (withUpload p upload.bytes d).root } := by
    rw [withFolder, afterTidy, Disk.makeFolder_of_placeToMake hplace]
    rfl
  rw [hwith]
  exact ⟨Disk.grows_putNew hhere hplace _, place, (Disk.isOpen_of_placeToMake hhere hplace).2,
    Disk.placeToRemove_putNew hhere hplace _⟩

theorem Fresh.hasFolder_withFolder (hfresh : Fresh p d) (upload : Upload) :
    (withFolder p upload d).root.HasFolder (withFolder p upload d).here :=
  ((hfresh.grows_withUpload upload.bytes).1.trans (hfresh.grows_withFolder upload).1).hasFolder_here
    hfresh.here

theorem Fresh.grows_started (hfresh : Fresh p d) {later : Disk}
    (h : started? p upload d = some later) : (withFolder p upload d).Grows later := by
  unfold started? at h
  split at h
  · next members _ =>
    have hgrows := grows_unpackAll (hfresh.hasFolder_withFolder upload) p.unpacked members
    cases hunpack : unpackAll p.unpacked (withFolder p upload d) members with
    | error e => simp [hunpack, Except.toOption] at h
    | ok d' =>
      rw [hunpack] at h hgrows
      obtain rfl := Option.some.inj h
      exact hgrows
  · cases h

/-- As long as nothing is taken away both are there, and the folder can be taken away without the
upload. -/
theorem Fresh.holds (hfresh : Fresh p d) {later : Disk} (h : (withFolder p upload d).Grows later) :
    later.Holds p.upload ∧ later.Holds p.unpacked ∧
      (later.removeAll p.unpacked).Holds p.upload := by
  obtain ⟨-, hupload, -⟩ := hfresh.grows_withUpload upload.bytes
  obtain ⟨hgrows, place, hnone, hplace⟩ := hfresh.grows_withFolder upload
  have hlater := Disk.placeToRemove_grow hplace h
  exact ⟨hupload.grow (hgrows.trans h), ⟨place, hlater⟩,
    hupload.grow ((hgrows.trans h).removeAll hnone hlater)⟩

end

inductive Course (p : Places) (upload : Upload) (s : Scene) : Except Failure Unit → Disk → Prop
  | unreadable {message : String} (h : upload.content = .unreadable message) :
    Course p upload s (.error (.upload message)) (withUpload p [] s.disk)
  | foreign (h : upload.content = .foreign) :
    Course p upload s (.error .foreignFile) (withFolder p upload s.disk)
  | broken {members : Archive} {e : UnpackError} {d : Disk} (h : upload.content = .archive members)
    (hunpack : unpackAll p.unpacked (withFolder p upload s.disk) members = .error (e, d)) :
    Course p upload s (.error (.unpack e)) d
  | refused {d : Disk} {message : String} (h : started? p upload s.disk = some d)
    (hending : (nextChild s).ending = .refused message) :
    Course p upload s (.error (.refused message)) (((nextChild s).change d).removeAll p.unpacked)
  | lost {d : Disk} {code : Int} {out err : Option String} {e : FileError}
    (h : started? p upload s.disk = some d) (hending : (nextChild s).ending = .ended code out err)
    (hlook : ¬ CanLook p ((nextChild s).change d)) :
    Course p upload s (.error (.file e)) ((nextChild s).change d)
  | finished {d : Disk} {code : Int} {out err : Option String}
    (h : started? p upload s.disk = some d) (hending : (nextChild s).ending = .ended code out err)
    (hlook : CanLook p ((nextChild s).change d)) :
    Course p upload s (.ok ()) (afterCleanUp p ((nextChild s).change d))

theorem exists_course (p : Places) {c : Controls} (hpressed : c.generate = true) (upload : Upload)
    (s : Scene) :
    ∃ result d, Course p upload s result d ∧ Ends (run p c (some upload)) s result d := by
  cases hcontent : upload.content with
  | unreadable message => exact ⟨_, _, .unreadable hcontent, ends_run_unreadable hcontent⟩
  | foreign =>
    have hforeign := runsTo_unpackUpload_foreign p { s with disk := withFolder p upload s.disk }
    rw [← hcontent] at hforeign
    exact ⟨_, _, .foreign hcontent, ends_run_broken hpressed (by simp [hcontent]) hforeign⟩
  | archive members =>
    have hreadable (message : String) : upload.content ≠ .unreadable message := by simp [hcontent]
    cases hunpack : unpackAll p.unpacked (withFolder p upload s.disk) members with
    | error e =>
      have hbroken :=
        runsTo_unpackUpload_broken (s := { s with disk := withFolder p upload s.disk }) hunpack
      rw [← hcontent] at hbroken
      exact ⟨_, _, .broken hcontent hunpack, ends_run_broken hpressed hreadable hbroken⟩
    | ok d =>
      have hunpacked :=
        runsTo_unpackUpload (s := { s with disk := withFolder p upload s.disk }) hunpack
      rw [← hcontent] at hunpacked
      have hstarted : started? p upload s.disk = some d := by
        simp only [started?, hcontent, hunpack, Except.toOption]
      cases hending : (nextChild s).ending with
      | refused message =>
        exact ⟨_, _, .refused hstarted hending,
          ends_run_unpacked hpressed hreadable hunpacked (ends_runPipeline_refused hending)⟩
      | ended code out err =>
        rcases ends_runPipeline_ended (s := { s with disk := d }) hending with
          ⟨hlook, hends⟩ | ⟨hlook, e, hends⟩
        · exact ⟨_, _, .finished hstarted hending hlook,
            ends_run_unpacked hpressed hreadable hunpacked hends⟩
        · exact ⟨_, _, .lost hstarted hending hlook,
            ends_run_unpacked hpressed hreadable hunpacked hends⟩

section
variable {p : Places} {upload : Upload} {s : Scene} {result : Except Failure Unit} {d e : Disk}

theorem Course.of_not_started (hcourse : Course p upload s result d) (hfresh : Fresh p s.disk)
    (hstarted : started? p upload s.disk = none) :
    result ≠ .ok () ∧ d.Holds p.upload ∧
      (¬ d.Holds p.unpacked ↔ ∃ message, upload.content = .unreadable message) := by
  cases hcourse with
  | unreadable h =>
    obtain ⟨-, hupload, place, hplace⟩ := hfresh.grows_withUpload []
    exact ⟨by simp, hupload, by simp [Disk.not_holds_of_placeToMake hplace, h]⟩
  | foreign h =>
    obtain ⟨hupload, hunpacked, -⟩ := hfresh.holds (.refl (withFolder p upload s.disk))
    exact ⟨by simp, hupload, by simp [hunpacked, h]⟩
  | @broken members _ _ h hunpack =>
    have hgrows : (withFolder p upload s.disk).Grows d := by
      simpa [hunpack, settled] using
        grows_unpackAll (hfresh.hasFolder_withFolder upload) p.unpacked members
    obtain ⟨hupload, hunpacked, -⟩ := hfresh.holds hgrows
    exact ⟨by simp, hupload, by simp [hunpacked, h]⟩
  | refused h => simp [h] at hstarted
  | lost h => simp [h] at hstarted
  | finished h => simp [h] at hstarted

theorem Course.of_started (hcourse : Course p upload s result d)
    (hstarted : started? p upload s.disk = some e) :
    let after := (nextChild s).change e
    (∃ message, (nextChild s).ending = .refused message ∧
        result ≠ .ok () ∧ d = after.removeAll p.unpacked) ∨
      ∃ code out err, (nextChild s).ending = .ended code out err ∧
        (CanLook p after ∧ result = .ok () ∧ d = afterCleanUp p after ∨
          ¬ CanLook p after ∧ result ≠ .ok () ∧ d = after) := by
  have hsame {e' : Disk} (h : started? p upload s.disk = some e') : e' = e :=
    Option.some.inj (h.symm.trans hstarted)
  cases hcourse with
  | unreadable h => simp [started?, h] at hstarted
  | foreign h => simp [started?, h] at hstarted
  | broken h hunpack => simp [started?, h, hunpack, Except.toOption] at hstarted
  | refused h hending =>
    obtain rfl := hsame h
    exact .inl ⟨_, hending, by simp, rfl⟩
  | lost h hending hlook =>
    obtain rfl := hsame h
    exact .inr ⟨_, _, _, hending, .inr ⟨hlook, by simp, rfl⟩⟩
  | finished h hending hlook =>
    obtain rfl := hsame h
    exact .inr ⟨_, _, _, hending, .inl ⟨hlook, rfl, rfl⟩⟩

theorem not_holds_afterCleanUp (hremove : d.Holds p.upload → ∃ d', d.remove p.upload = .ok d') :
    ¬ (afterCleanUp p d).Holds p.upload ∧ ¬ (afterCleanUp p d).Holds p.unpacked := by
  refine ⟨fun h => ?_, Disk.not_holds_removeAll _ _⟩
  have h := h.grow (Disk.grows_of_removeAll _ _)
  rw [afterTidy] at h
  cases hremoved : d.remove p.upload with
  | ok d' =>
    rw [hremoved] at h
    exact Disk.not_holds_of_remove hremoved h
  | error cause =>
    rw [hremoved] at h
    obtain ⟨d', hd'⟩ := hremove h
    rw [hremoved] at hd'
    cases hd'

end

/-- The upload is gone after a run exactly if the pipeline came to an end and its results could be
looked for, or if the pipeline itself did away with it. The folder for its content is also gone if
it was never made, and if the pipeline could not be run: that takes the folder away, but it leaves
the upload of a pipeline that changed nothing. -/
theorem temporaries_gone_iff {p : Places} {c : Controls} (upload : Upload) (page : Page)
    (hpressed : c.generate = true) (hfresh : Fresh p page.scene.disk)
    (hremove : ∀ d ∈ ended? p upload page.scene.disk (nextChild page.scene),
      d.Holds p.upload → ∃ d', d.remove p.upload = .ok d') :
    ∃ result after, upshot (run p c (some upload)) page = (result, after) ∧
      (result = .ok () ↔
        ∃ d ∈ ended? p upload page.scene.disk (nextChild page.scene), CanLook p d) ∧
      (¬ after.scene.disk.Holds p.upload ∧ ¬ after.scene.disk.Holds p.unpacked ↔
        (∃ d ∈ ended? p upload page.scene.disk (nextChild page.scene),
          CanLook p d ∨ ¬ d.Holds p.upload ∧ ¬ d.Holds p.unpacked) ∨
        ∃ d ∈ refused? p upload page.scene.disk (nextChild page.scene),
          ¬ (d.removeAll p.unpacked).Holds p.upload) ∧
      (¬ after.scene.disk.Holds p.upload ↔
        (∃ d ∈ ended? p upload page.scene.disk (nextChild page.scene),
          CanLook p d ∨ ¬ d.Holds p.upload) ∨
        ∃ d ∈ refused? p upload page.scene.disk (nextChild page.scene),
          ¬ (d.removeAll p.unpacked).Holds p.upload) ∧
      (¬ after.scene.disk.Holds p.unpacked ↔
        (∃ message, upload.content = .unreadable message) ∨
          (refused? p upload page.scene.disk (nextChild page.scene)).isSome ∨
          ∃ d ∈ ended? p upload page.scene.disk (nextChild page.scene),
            CanLook p d ∨ ¬ d.Holds p.unpacked) ∧
      ∀ d ∈ started? p upload page.scene.disk, (d.removeAll p.unpacked).Holds p.upload := by
  obtain ⟨result, d, hcourse, later, rfl, hlater⟩ := exists_course p hpressed upload page.scene
  obtain ⟨shown, hrun⟩ := hlater page.elements
  refine ⟨result, ⟨later, shown⟩, hrun, ?_⟩
  unfold ended? refused? at *
  cases hstarted : started? p upload page.scene.disk with
  | none =>
    obtain ⟨hresult, hupload, hunpacked⟩ := hcourse.of_not_started hfresh hstarted
    cases (nextChild page.scene).ending <;> simp [hresult, hupload, hunpacked]
  | some e =>
    obtain ⟨-, -, hleft⟩ := hfresh.holds (hfresh.grows_started hstarted)
    have hreadable (message : String) : upload.content ≠ .unreadable message := by
      intro h
      simp [started?, h] at hstarted
    rcases hcourse.of_started hstarted with
      ⟨message, hending, hresult, hdisk⟩ | ⟨code, out, err, hending, hends⟩
    · simp [hending, hresult, hdisk, hleft, Disk.not_holds_removeAll]
    · simp only [hending, hstarted] at hremove
      obtain ⟨hupload, hunpacked⟩ := not_holds_afterCleanUp (hremove _ rfl)
      rcases hends with ⟨hlook, hresult, hdisk⟩ | ⟨hlook, hresult, hdisk⟩
      · simp [hending, hdisk, hresult, hlook, hupload, hunpacked, hleft]
      · simp [hending, hdisk, hresult, hlook, hreadable, hleft]

def bareDisk : Disk := ⟨.folder [("tmp", .folder [])], []⟩

def barePlaces : Places := ⟨"/docs", "interpreter", "/tmp/upload.zip", "/tmp/uploaded"⟩

def barePage : Page := ⟨⟨bareDisk, [], []⟩, []⟩

def foreignUpload : Upload := ⟨"proj.zip", [0], .foreign⟩

theorem placeToMake_bareDisk {path name : String} (hcheck : Disk.checkPath path = .ok ())
    (hnames : Disk.names path = ["tmp", name]) (hname : Disk.IsLooked name)
    (hstart : bareDisk.start path = []) (hshort : name.utf8ByteSize ≤ Disk.maxName) :
    bareDisk.placeToMake path = .ok ["tmp", name] := by
  have htmp : Disk.lookUp bareDisk.root [] "tmp" = .ok (some (.folder [])) := by
    rw [Disk.lookUp, if_neg (by decide +kernel)]
    rfl
  have hleads : Disk.Leads bareDisk.root ["tmp"] Disk.maxLinks [] ["tmp", "."] :=
    .folder ⟨by decide, by decide⟩ htmp (.dot (.done _))
  have hfollow : Disk.follow bareDisk.root Disk.maxLinks (bareDisk.start path)
      ((Disk.names path).dropLast ++ ["."]) = .ok ["tmp"] := by
    rw [hstart, hnames]
    exact hleads.follow_eq
  have hend := Disk.locateEnd_of_follow hcheck hname (by rw [hnames]; rfl) hfollow
  refine Disk.placeToMake_eq_ok_iff.2 ⟨_, _, hend, rfl, ?_⟩
  rw [Disk.lookUp, if_neg (Nat.not_lt.2 hshort)]
  rfl

theorem fresh_bareDisk : Fresh barePlaces bareDisk := by
  have hupload : bareDisk.placeToMake barePlaces.upload = .ok ["tmp", "upload.zip"] :=
    placeToMake_bareDisk rfl (by decide +kernel) ⟨by decide, by decide⟩ rfl (by decide +kernel)
  have hunpacked : bareDisk.placeToMake barePlaces.unpacked = .ok ["tmp", "uploaded"] :=
    placeToMake_bareDisk rfl (by decide +kernel) ⟨by decide, by decide⟩ rfl (by decide +kernel)
  refine ⟨⟨_, rfl⟩, ⟨_, hupload⟩, ⟨_, hunpacked⟩, ?_, by decide +kernel⟩
  rw [hupload, hunpacked]
  simp

theorem foreignUpload_stays :
    ∃ result after, upshot (run barePlaces ⟨false, true, "", true, true, false⟩
        (some foreignUpload)) barePage = (result, after) ∧
      result ≠ .ok () ∧ after.scene.disk.Holds barePlaces.upload ∧
        after.scene.disk.Holds barePlaces.unpacked := by
  have hended : ended? barePlaces foreignUpload barePage.scene.disk (nextChild barePage.scene) =
    none := rfl
  have hrefused : refused? barePlaces foreignUpload barePage.scene.disk
    (nextChild barePage.scene) = none := rfl
  have hreadable (message : String) : foreignUpload.content ≠ .unreadable message := by
    simp [foreignUpload]
  obtain ⟨result, after, hrun, hresult, -, hupload, hunpacked, -⟩ :=
    temporaries_gone_iff (c := ⟨false, true, "", true, true, false⟩) foreignUpload barePage rfl
      fresh_bareDisk (fun d hd => absurd hd (Option.not_mem_none d))
  rw [hended] at hresult hupload hunpacked
  rw [hrefused] at hupload hunpacked
  refine ⟨result, after, hrun, ?_, ?_, ?_⟩
  · simpa using hresult
  · simpa using hupload
  · simpa [hreadable] using hunpacked

end CodeAtlas.WebPage
