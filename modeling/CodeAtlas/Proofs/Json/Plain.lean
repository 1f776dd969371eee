import CodeAtlas.Json.Pieces
import CodeAtlas.Json.Reader
import CodeAtlas.Proofs.Json.Members

/-! Values that can be written and read without loss, and what their text is made of: no carriage
return, and no surrogate in any of the pieces that go out. -/

namespace CodeAtlas.Json

open Text (Points CodePoint)

mutual

def everywhere (test : Json → Bool) : Json → Bool
  | arr items => test (arr items) && everywhereIn test items
  | obj members => test (obj members) && everywhereUnder test members
  | j => test j

def everywhereIn (test : Json → Bool) : List Json → Bool
  | [] => true
  | item :: items => everywhere test item && everywhereIn test items

def everywhereUnder (test : Json → Bool) : List (Points × Json) → Bool
  | [] => true
  | (_, value) :: members => everywhere test value && everywhereUnder test members

end

theorem test_of_everywhere {test : Json → Bool} {v : Json} (h : v.everywhere test) : test v := by
  cases v <;> simp_all [everywhere]

theorem everywhereIn_cons {test : Json → Bool} {item : Json} {items : List Json} :
    everywhereIn test (item :: items) ↔ item.everywhere test ∧ everywhereIn test items := by
  rw [everywhereIn, Bool.and_eq_true]

theorem everywhereUnder_cons {test : Json → Bool} {key : Points} {value : Json}
    {members : List (Points × Json)} :
    everywhereUnder test ((key, value) :: members) ↔
      value.everywhere test ∧ everywhereUnder test members := by
  rw [everywhereUnder, Bool.and_eq_true]

def isText (s : Points) : Bool := s.all fun p => !p.isSurrogate

theorem isText_iff {s : Points} : isText s ↔ ∀ p ∈ s, p.isSurrogate = false := by simp [isText]

/-- No number with decimals, texts without surrogates, and every key once. -/
def isPlain : Json → Bool
  | real _ => false
  | str s => isText s
  | obj members => decide (members.map Prod.fst).Nodup && members.all fun m => isText m.1
  | _ => true

theorem isPlain_of_obj_cons {key : Points} {value : Json} {members : List (Points × Json)}
    (h : (obj ((key, value) :: members)).everywhere isPlain) :
    isText key ∧ (members.all fun m => isText m.1) ∧ value.everywhere isPlain ∧
      everywhereUnder isPlain members := by
  rw [everywhere, Bool.and_eq_true, everywhereUnder_cons, isPlain, Bool.and_eq_true,
    List.all_cons, Bool.and_eq_true] at h
  exact ⟨h.1.2.1, h.1.2.2, h.2.1, h.2.2⟩

theorem isText_ofChars (cs : List Char) : isText (Points.ofChars cs) := by
  simp [isText, Points.ofChars, CodePoint.isSurrogate]

theorem isPlain_str (s : String) : (str s).everywhere isPlain := isText_ofChars s.toList

theorem isPlain_arr {items : List Json} (h : ∀ item ∈ items, item.everywhere isPlain) :
    (arr items).everywhere isPlain := by
  rw [everywhere, Bool.and_eq_true]
  refine ⟨rfl, ?_⟩
  induction items with
  | nil => rfl
  | cons item items ih =>
    obtain ⟨hitem, hitems⟩ := List.forall_mem_cons.1 h
    exact everywhereIn_cons.2 ⟨hitem, ih hitems⟩

theorem isPlain_arr_map {α : Type} {f : α → Json} (h : ∀ x, (f x).everywhere isPlain)
    (xs : List α) : (arr (xs.map f)).everywhere isPlain :=
  isPlain_arr (List.forall_mem_map.2 fun x _ => h x)

theorem isPlain_ofStrings (texts : List String) : (ofStrings texts).everywhere isPlain :=
  isPlain_arr_map isPlain_str texts

theorem isPlain_obj (keys : List String) {members : List (Points × Json)}
    (hkeys : members.map Prod.fst = keys.map Points.ofString) (hnodup : keys.Nodup)
    (h : ∀ member ∈ members, member.2.everywhere isPlain) : (obj members).everywhere isPlain := by
  have hplain : (obj members).isPlain := by
    rw [isPlain, Bool.and_eq_true, decide_eq_true_eq, hkeys]
    refine ⟨List.Pairwise.map _ (fun _ _ hne heq => hne (Text.Points.ofString_inj.1 heq)) hnodup,
      List.all_eq_true.2 fun member hmember => ?_⟩
    have hkey : member.1 ∈ keys.map Points.ofString := hkeys ▸ List.mem_map_of_mem hmember
    obtain ⟨key, -, heq⟩ := List.mem_map.1 hkey
    rw [← heq]
    exact isText_ofChars key.toList
  rw [everywhere, Bool.and_eq_true]
  refine ⟨hplain, ?_⟩
  clear hkeys hplain
  induction members with
  | nil => rfl
  | cons member members ih =>
    obtain ⟨hmember, hmembers⟩ := List.forall_mem_cons.1 h
    exact everywhereUnder_cons.2 ⟨hmember, ih hmembers⟩

def isShort : Json → Bool
  | int n => (Nat.toDigits 10 n.natAbs).length ≤ Reader.maxDigits
  | _ => true

namespace Reader

theorem isAsciiDigit_of_mem {n : Nat} {c : Char} (h : c ∈ Nat.toDigits 10 n) : isAsciiDigit c := by
  have hdigit := Nat.isDigit_of_mem_toDigits (by decide) (by decide) h
  simpa [isAsciiDigit, Char.isDigit, Char.le_def] using hdigit

def intChars (n : Int) : List Char :=
  if n < 0 then '-' :: Nat.toDigits 10 n.natAbs else Nat.toDigits 10 n.natAbs

theorem toList_toString_int (n : Int) : (toString n).toList = intChars n := by
  have hrepr (k : Nat) : k.repr.toList = Nat.toDigits 10 k := by rw [Nat.repr, String.toList_ofList]
  rw [Int.toString_eq_repr, Int.repr_eq_if, intChars]
  by_cases hn : n < 0
  · have habs : (-n).toNat = n.natAbs := by omega
    rw [if_neg (by omega), if_pos hn, habs, String.toList_append, hrepr]
    rfl
  · have habs : n.toNat = n.natAbs := by omega
    rw [if_pos (by omega), if_neg hn, habs, hrepr]

end Reader

/-! A carriage return in a text is written as an escape, and there is none anywhere else. -/

section
variable {style : Style}

theorem carriageReturn_not_mem_escapeChar (c : Char) : '\r' ∉ escapeChar false c := by
  have hcontrol : ∀ n < 0x20, '\r' ∉ escapeUnit n := by decide +kernel
  unfold escapeChar
  split
  · next hc => rcases hc with rfl | rfl <;> decide
  split
  · decide
  split
  · decide
  · next hreturn =>
    split
    · decide
    split
    · decide
    split
    · decide
    split
    · next hlow =>
      have hlow : c.toNat < 0x20 := by simpa using hlow
      rw [escapeNumber, if_pos (by omega)]
      exact hcontrol c.toNat hlow
    · exact fun hmem => hreturn (List.mem_singleton.1 hmem).symm

theorem carriageReturn_not_mem_writeText {s : Points} (hs : isText s) :
    '\r' ∉ writeText false s := by
  have hinside : '\r' ∉ s.flatMap (escapePoint false) := by
    rw [List.mem_flatMap]
    rintro ⟨p, hp, hmem⟩
    cases p with
    | char c => exact carriageReturn_not_mem_escapeChar c hmem
    | surrogate n => cases isText_iff.1 hs _ hp
  simp [writeText, hinside]

theorem carriageReturn_not_mem_intChars (n : Int) : '\r' ∉ Reader.intChars n := by
  have hdigits : '\r' ∉ Nat.toDigits 10 n.natAbs :=
    fun hmem => absurd (Reader.isAsciiDigit_of_mem hmem) (by decide)
  unfold Reader.intChars
  split <;> simp [hdigits]

theorem carriageReturn_not_mem_breakAt (style : Style) (depth : Nat) :
    '\r' ∉ breakAt style depth := by
  unfold breakAt
  cases style.step <;> simp

theorem carriageReturn_not_mem_comma (style : Style) (depth : Nat) : '\r' ∉ comma style depth := by
  have hbreak := carriageReturn_not_mem_breakAt style depth
  unfold comma
  cases style.step <;> simp [hbreak]

mutual

theorem carriageReturn_not_mem_write (hstyle : style.ascii = false) (v : Json)
    (h : v.everywhere isPlain) (depth : Nat) : '\r' ∉ write style depth v := by
  have hbreak := carriageReturn_not_mem_breakAt style
  match v with
  | null => exact (by decide : '\r' ∉ "null".toList)
  | bool true => exact (by decide : '\r' ∉ "true".toList)
  | bool false => exact (by decide : '\r' ∉ "false".toList)
  | int n =>
    rw [write, Reader.toList_toString_int]
    exact carriageReturn_not_mem_intChars n
  | real x => cases h
  | str s =>
    rw [write, hstyle]
    exact carriageReturn_not_mem_writeText h
  | arr [] => exact (by decide : '\r' ∉ ['[', ']'])
  | arr (item :: items) =>
    rw [everywhere, Bool.and_eq_true, everywhereIn_cons] at h
    have hitem := carriageReturn_not_mem_write hstyle item h.2.1 (depth + 1)
    have hitems := carriageReturn_not_mem_writeItems hstyle items h.2.2 (depth + 1)
    simp [write, hbreak, hitem, hitems]
  | obj [] => exact (by decide : '\r' ∉ ['\x7b', '\x7d'])
  | obj ((key, value) :: members) =>
    obtain ⟨hkey, hkeys, hvalue, hmembers⟩ := isPlain_of_obj_cons h
    have hkey := carriageReturn_not_mem_writeText hkey
    have hvalue := carriageReturn_not_mem_write hstyle value hvalue (depth + 1)
    have hmembers := carriageReturn_not_mem_writeMembers hstyle members hkeys hmembers (depth + 1)
    simp [write, hstyle, hbreak, hkey, hvalue, hmembers]

theorem carriageReturn_not_mem_writeItems (hstyle : style.ascii = false) (items : List Json)
    (h : everywhereIn isPlain items) (depth : Nat) : '\r' ∉ writeItems style depth items := by
  match items with
  | [] => exact List.not_mem_nil
  | item :: items =>
    obtain ⟨hitem, hitems⟩ := everywhereIn_cons.1 h
    have hcomma := carriageReturn_not_mem_comma style depth
    have hitem := carriageReturn_not_mem_write hstyle item hitem depth
    have hitems := carriageReturn_not_mem_writeItems hstyle items hitems depth
    simp [writeItems, hcomma, hitem, hitems]

theorem carriageReturn_not_mem_writeMembers (hstyle : style.ascii = false)
    (members : List (Points × Json)) (htext : members.all fun m => isText m.1)
    (h : everywhereUnder isPlain members) (depth : Nat) :
    '\r' ∉ writeMembers style depth members := by
  match members with
  | [] => exact List.not_mem_nil
  | (key, value) :: members =>
    rw [List.all_cons, Bool.and_eq_true] at htext
    obtain ⟨hvalue, hmembers⟩ := everywhereUnder_cons.1 h
    have hcomma := carriageReturn_not_mem_comma style depth
    have hkey := carriageReturn_not_mem_writeText htext.1
    have hvalue := carriageReturn_not_mem_write hstyle value hvalue depth
    have hmembers := carriageReturn_not_mem_writeMembers hstyle members htext.2 hmembers depth
    simp [writeMembers, hstyle, hcomma, hkey, hvalue, hmembers]

end

end

/-! The pieces in which a value goes out make up its text, so none of them holds a surrogate. -/

theorem rawText_eq {s : Points} (hs : isText s) :
    rawText s = Points.ofChars (writeText false s) := by
  have hinside : s.flatMap rawPoint = Points.ofChars (s.flatMap (escapePoint false)) := by
    rw [Points.ofChars, List.map_flatMap, List.flatMap_def, List.flatMap_def]
    refine congrArg List.flatten (List.map_congr_left fun p hp => ?_)
    cases p with
    | char c => rfl
    | surrogate n => cases isText_iff.1 hs _ hp
  rw [rawText, writeText, hinside]
  simp [Points.ofChars]

theorem pieces_of_not_isOpened {v : Json} (h : v.isOpened = false) (depth : Nat) :
    v.pieces depth = [rawValue v] := by
  unfold isOpened at h
  split at h
  · cases h
  · cases h
  · next hlist hobject =>
    rw [pieces]
    · exact hlist
    · exact fun key value members heq => hobject (key, value) members heq

theorem flatten_item (before : Points) {item : Json} {depth : Nat}
    (h : (item.pieces depth).flatten = Points.ofChars (write .saved depth item)) :
    (if item.isOpened then before :: item.pieces depth else [before ++ rawValue item]).flatten =
      before ++ Points.ofChars (write .saved depth item) := by
  split
  · rw [List.flatten_cons, h]
  · next hopened =>
    rw [pieces_of_not_isOpened (Bool.eq_false_iff.2 hopened)] at h
    rw [← h]
    simp

mutual

theorem flatten_pieces (v : Json) (h : v.everywhere isPlain) (depth : Nat) :
    (v.pieces depth).flatten = Points.ofChars (write .saved depth v) := by
  match v with
  | null | bool _ | int _ | arr [] | obj [] => simp [pieces, rawValue, write]
  | real x => cases h
  | str s => simp [pieces, rawValue, write, rawText_eq h, Style.saved]
  | arr (item :: items) =>
    rw [everywhere, Bool.and_eq_true, everywhereIn_cons] at h
    have hitem := flatten_item (.char '[' :: lineBreak (depth + 1))
      (flatten_pieces item h.2.1 (depth + 1))
    have hitems := flatten_itemPieces items h.2.2 (depth + 1)
    rw [pieces, itemPieces, List.flatten_append, List.flatten_append, hitem, hitems, write]
    simp [lineBreak, Points.ofChars]
  | obj ((key, value) :: members) =>
    obtain ⟨hkey, hkeys, hvalue, hmembers⟩ := isPlain_of_obj_cons h
    have hvalue := flatten_pieces value hvalue (depth + 1)
    have hmembers := flatten_memberPieces members hkeys hmembers (depth + 1)
    have hcolon : Points.ofString ": " = Points.ofChars [':', ' '] := rfl
    simp [pieces, write, hvalue, hmembers, rawText_eq hkey, lineBreak, hcolon, Points.ofChars,
      Style.saved]

theorem flatten_itemPieces (items : List Json) (h : everywhereIn isPlain items) (depth : Nat) :
    (itemPieces depth (.char ',' :: lineBreak depth) items).flatten =
      Points.ofChars (writeItems .saved depth items) := by
  match items with
  | [] => rfl
  | item :: items =>
    obtain ⟨hitem, hitems⟩ := everywhereIn_cons.1 h
    have hitem := flatten_item (.char ',' :: lineBreak depth) (flatten_pieces item hitem depth)
    have hitems := flatten_itemPieces items hitems depth
    rw [itemPieces, List.flatten_append, hitem, hitems, writeItems]
    simp [comma, Style.saved, lineBreak, Points.ofChars]

theorem flatten_memberPieces (members : List (Points × Json))
    (htext : members.all fun m => isText m.1) (h : everywhereUnder isPlain members) (depth : Nat) :
    (memberPieces depth members).flatten = Points.ofChars (writeMembers .saved depth members) := by
  match members with
  | [] => rfl
  | (key, value) :: members =>
    rw [List.all_cons, Bool.and_eq_true] at htext
    obtain ⟨hvalue, hmembers⟩ := everywhereUnder_cons.1 h
    have hvalue := flatten_pieces value hvalue depth
    have hmembers := flatten_memberPieces members htext.2 hmembers depth
    have hcolon : Points.ofString ": " = Points.ofChars [':', ' '] := rfl
    simp [memberPieces, writeMembers, comma, hvalue, hmembers, rawText_eq htext.1, lineBreak,
      hcolon, Points.ofChars, Style.saved]

end

theorem isText_of_mem_pieces {v : Json} (h : v.everywhere isPlain) {depth : Nat} {piece : Points}
    (hpiece : piece ∈ v.pieces depth) : isText piece := by
  have hwhole : isText (v.pieces depth).flatten := by
    rw [flatten_pieces v h depth]
    exact isText_ofChars _
  refine List.all_eq_true.2 fun p hp => ?_
  exact List.all_eq_true.1 hwhole p (List.mem_flatten_of_mem hpiece hp)

end CodeAtlas.Json
