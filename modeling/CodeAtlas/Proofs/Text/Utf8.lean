import CodeAtlas.Text.Utf8

/-! Reading back the bytes of a text. -/

namespace CodeAtlas.Text.Utf8

theorem toList_loop (bytes : ByteArray) (i : Nat) (done : List UInt8) :
    ByteArray.toList.loop bytes i done = done.reverse ++ bytes.data.toList.drop i := by
  fun_induction ByteArray.toList.loop bytes i done with
  | case1 i done h ih =>
    have hget : bytes.data.toList.drop i = bytes.get! i :: bytes.data.toList.drop (i + 1) := by
      rw [List.drop_eq_getElem_cons (by simpa using h)]
      simp [ByteArray.get!, h]
    rw [ih, hget]
    simp
  | case2 i done h =>
    have hsize : bytes.data.toList.length ≤ i := by simpa using h
    rw [List.drop_eq_nil_of_le hsize, List.append_nil]

theorem encode_eq (s : String) : encode s = s.toList.flatMap String.utf8EncodeChar := by
  rw [encode, String.toUTF8, ByteArray.toList, toList_loop, ← String.utf8Encode_toList]
  simp [List.utf8Encode]

section
variable {v : Nat} (rest : List UInt8)

theorem toNat_byte {n : Nat} (h : n < 0x100) : (UInt8.ofNat n).toNat = n := by
  rw [UInt8.toNat_ofNat']
  exact Nat.mod_eq_of_lt h

theorem isContinuation_byte (n : Nat) : isContinuation (UInt8.ofNat (n % 0x40 + 0x80)) := by
  rw [isContinuation, toNat_byte (by omega)]
  simp only [Bool.and_eq_true, decide_eq_true_eq]
  omega

theorem payload_byte (n : Nat) : payload (UInt8.ofNat (n % 0x40 + 0x80)) = n % 0x40 := by
  rw [payload, toNat_byte (by omega)]
  omega

theorem head_one (h : v ≤ 0x7f) : head (UInt8.ofNat v) rest = .character v 0 := by
  have hfirst : (UInt8.ofNat v).toNat = v := toNat_byte (by omega)
  rw [head.eq_def, hfirst, if_pos (by omega)]

theorem head_two (h : 0x7f < v) (h' : v ≤ 0x7ff) :
    head (UInt8.ofNat (v / 0x40 % 0x20 + 0xc0)) (UInt8.ofNat (v % 0x40 + 0x80) :: rest) =
      .character v 1 := by
  have hfirst := @toNat_byte (v / 0x40 % 0x20 + 0xc0) (by omega)
  rw [head, hfirst, if_neg (by omega), if_neg (by omega), if_pos (by omega)]
  rw [if_pos (isContinuation_byte v), payload_byte]
  congr 1
  omega

theorem head_three (h : 0x7ff < v) (h' : v ≤ 0xffff) (hvalid : v < 0xd800 ∨ 0xdfff < v) :
    head (UInt8.ofNat (v / 0x1000 % 0x10 + 0xe0)) (UInt8.ofNat (v / 0x40 % 0x40 + 0x80) ::
      UInt8.ofNat (v % 0x40 + 0x80) :: rest) = .character v 2 := by
  have hfirst := @toNat_byte (v / 0x1000 % 0x10 + 0xe0) (by omega)
  have hsecond := @toNat_byte (v / 0x40 % 0x40 + 0x80) (by omega)
  rw [head, hfirst, if_neg (by omega), if_neg (by omega), if_neg (by omega), if_pos (by omega),
    headOfThree, hfirst, hsecond, isContinuation_byte, payload_byte, payload_byte, if_neg ?_]
  · rw [if_pos (isContinuation_byte v)]
    congr 1
    omega
  · rw [Bool.not_true, Bool.false_or]
    split <;> rw [decide_eq_true_eq] <;> omega

theorem head_four (h : 0xffff < v) (h' : v < 0x110000) :
    head (UInt8.ofNat (v / 0x40000 % 0x8 + 0xf0)) (UInt8.ofNat (v / 0x1000 % 0x40 + 0x80) ::
      UInt8.ofNat (v / 0x40 % 0x40 + 0x80) :: UInt8.ofNat (v % 0x40 + 0x80) :: rest) =
        .character v 3 := by
  have hfirst := @toNat_byte (v / 0x40000 % 0x8 + 0xf0) (by omega)
  have hsecond := @toNat_byte (v / 0x1000 % 0x40 + 0x80) (by omega)
  rw [head, hfirst, if_neg (by omega), if_neg (by omega), if_neg (by omega), if_neg (by omega),
    if_pos (by omega), headOfFour, hfirst, hsecond, isContinuation_byte, payload_byte,
    payload_byte, payload_byte, if_neg ?_]
  · rw [isContinuation_byte, if_neg (by simp), if_pos (isContinuation_byte v)]
    congr 1
    omega
  · rw [Bool.not_true, Bool.false_or]
    split <;> rw [decide_eq_true_eq] <;> omega

end

theorem head_utf8EncodeChar (c : Char) (rest : List UInt8) :
    ∃ first more, String.utf8EncodeChar c = first :: more ∧
      head first (more ++ rest) = .character c.toNat more.length := by
  have hvalid : c.toNat < 0xd800 ∨ 0xdfff < c.toNat ∧ c.toNat < 0x110000 := c.valid
  have hnat : c.val.toNat = c.toNat := rfl
  unfold String.utf8EncodeChar
  simp only [hnat]
  split
  · exact ⟨_, _, rfl, head_one rest ‹_›⟩
  split
  · exact ⟨_, _, rfl, head_two rest (by omega) ‹_›⟩
  split
  · exact ⟨_, _, rfl, head_three rest (by omega) ‹_› (by omega)⟩
  · exact ⟨_, _, rfl, head_four rest (by omega) (by omega)⟩

theorem decodeLenient_utf8EncodeChar (c : Char) (rest : List UInt8) :
    decodeLenient (String.utf8EncodeChar c ++ rest) = c :: decodeLenient rest := by
  obtain ⟨first, more, hbytes, hhead⟩ := head_utf8EncodeChar c rest
  rw [hbytes, List.cons_append, decodeLenient, hhead]
  simp

theorem decodeLenient_encode (s : String) : decodeLenient (encode s) = s.toList := by
  rw [encode_eq]
  induction s.toList with
  | nil => rw [List.flatMap_nil, decodeLenient]
  | cons c cs ih => rw [List.flatMap_cons, decodeLenient_utf8EncodeChar, ih]

theorem decodeFrom_utf8EncodeChar (position : Nat) (c : Char) (rest : List UInt8) :
    ∃ next, decodeFrom position (String.utf8EncodeChar c ++ rest) =
      (decodeFrom next rest).map (c :: ·) := by
  obtain ⟨first, more, hbytes, hhead⟩ := head_utf8EncodeChar c rest
  refine ⟨position + 1 + more.length, ?_⟩
  rw [hbytes, List.cons_append, decodeFrom, hhead]
  dsimp only
  rw [Char.ofNat_toNat, List.drop_left]
  cases decodeFrom (position + 1 + more.length) rest <;> rfl

theorem decode_encode (s : String) : decode (encode s) = .ok s.toList := by
  have hfrom (position : Nat) (cs : List Char) :
      decodeFrom position (cs.flatMap String.utf8EncodeChar) = .ok cs := by
    induction cs generalizing position with
    | nil => rw [List.flatMap_nil, decodeFrom]
    | cons c cs ih =>
      obtain ⟨next, hnext⟩ :=
        decodeFrom_utf8EncodeChar position c (cs.flatMap String.utf8EncodeChar)
      rw [List.flatMap_cons, hnext, ih next]
      rfl
  rw [encode_eq]
  exact hfrom 0 s.toList

theorem unifyNewlines_of_not_mem {cs : List Char} (h : '\r' ∉ cs) : unifyNewlines cs = cs := by
  induction cs with
  | nil => rfl
  | cons c cs ih =>
    obtain ⟨hc, hcs⟩ := List.ne_and_not_mem_of_not_mem_cons h
    rw [unifyNewlines, if_neg hc.symm, ih hcs]
    exact fun rest heq => absurd heq hc.symm

theorem readText_encode {s : String} (h : '\r' ∉ s.toList) : readText (encode s) = .ok s := by
  rw [readText, decode_encode]
  refine congrArg Except.ok ?_
  rw [unifyNewlines_of_not_mem h, String.ofList_toList]

theorem unencodableFrom?_eq_none {ps : Points} (h : ∀ p ∈ ps, p.isSurrogate = false)
    (position : Nat) : unencodableFrom? position ps = none := by
  induction ps generalizing position with
  | nil => rfl
  | cons p ps ih =>
    obtain ⟨hp, hps⟩ := List.forall_mem_cons.1 h
    cases p with
    | char c => exact ih hps (position + 1)
    | surrogate n => cases hp

end CodeAtlas.Text.Utf8
