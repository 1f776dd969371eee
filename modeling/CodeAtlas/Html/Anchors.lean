import CodeAtlas.Text.Character

/-! Anchors for the headings of a page. A page is cut into headings and the characters between them;
each heading then gets an id, made from its title, and a link to itself. -/

namespace CodeAtlas.Html

inductive Piece
  | char (c : Char)
  | heading (level : Char) (title : List Char)
  deriving DecidableEq, Repr

def isLevel (c : Char) : Bool := '1' ≤ c && c ≤ '6'

def openTag (level : Char) : List Char := ['<', 'h', level, '>']

def closeTag (level : Char) : List Char := ['<', '/', 'h', level, '>']

/-- The title up to the first tag that closes the heading, and what follows that tag. A title has no
line breaks. -/
def titleAndRest? (level : Char) : List Char → Option (List Char × List Char)
  | [] => none
  | c :: cs =>
    if (closeTag level).isPrefixOf (c :: cs) then some ([], (c :: cs).drop 5)
    else if c = '\n' then none
    else (titleAndRest? level cs).map fun (title, rest) => (c :: title, rest)

def heading? : List Char → Option (Char × List Char × List Char)
  | '<' :: 'h' :: level :: '>' :: rest =>
    if isLevel level then
      (titleAndRest? level rest).map fun (title, rest) => (level, title, rest)
    else none
  | _ => none

theorem length_of_titleAndRest? {level : Char} {cs title rest : List Char}
    (h : titleAndRest? level cs = some (title, rest)) : rest.length ≤ cs.length := by
  induction cs generalizing title with
  | nil => simp [titleAndRest?] at h
  | cons c cs ih =>
    simp only [titleAndRest?] at h
    split at h
    · simp only [Option.some.injEq, Prod.mk.injEq] at h
      rw [← h.2]
      simp only [List.length_drop]
      omega
    · split at h
      · simp at h
      · simp only [Option.map_eq_some_iff, Prod.exists, Prod.mk.injEq] at h
        obtain ⟨t, r, hr, -, rfl⟩ := h
        exact Nat.le_succ_of_le (ih hr)

theorem length_of_heading? {cs title rest : List Char} {level : Char}
    (h : heading? cs = some (level, title, rest)) : rest.length < cs.length := by
  unfold heading? at h
  split at h
  · split at h
    · simp only [Option.map_eq_some_iff, Prod.exists, Prod.mk.injEq] at h
      obtain ⟨t, r, hr, -, -, rfl⟩ := h
      have := length_of_titleAndRest? hr
      simp only [List.length_cons]
      omega
    · simp at h
  · simp at h

def pieces (cs : List Char) : List Piece :=
  match _h : heading? cs with
  | some (level, title, rest) => .heading level title :: pieces rest
  | none =>
    match cs with
    | [] => []
    | c :: cs => .char c :: pieces cs
termination_by cs.length
decreasing_by
  · exact length_of_heading? (by assumption)
  · simp

def isSlugChar (c : Char) : Bool :=
  ('a' ≤ c && c ≤ 'z') || ('A' ≤ c && c ≤ 'Z') || ('0' ≤ c && c ≤ '9') || Text.isBlank c

/-- The id of a heading: letters and digits of ASCII in small form, and blanks, of which a space
becomes a dash. -/
def slug (title : List Char) : List Char :=
  (title.filter isSlugChar).map fun c => if c = ' ' then '-' else c.toLower

def Piece.source : Piece → List Char
  | char c => [c]
  | heading level title => openTag level ++ title ++ closeTag level

def Piece.anchored : Piece → List Char
  | char c => [c]
  | heading level title =>
    let id := slug title
    ['<', 'h', level] ++ " id=\"".toList ++ id ++ "\">".toList ++ title
      ++ " <a class=\"anchor\" href=\"#".toList ++ id ++ "\" aria-hidden=\"true\">#</a>".toList
      ++ closeTag level

def addAnchors (html : String) : String :=
  String.ofList ((pieces html.toList).flatMap Piece.anchored)

end CodeAtlas.Html
