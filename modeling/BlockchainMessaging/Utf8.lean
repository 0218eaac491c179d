import BlockchainMessaging.Values
import Mathlib.Tactic.SplitIfs

/-!
`str.encode()` and `bytes.decode()` with their default `'utf-8'` codec and `'strict'` errors.
A Python string is a sequence of code points below `0x110000`, lone surrogates included;
encoding one of those raises `UnicodeEncodeError`, and decoding accepts exactly the shortest
forms of RFC 3629.
-/

namespace BlockchainMessaging

abbrev PyStr := List (Fin 0x110000)

namespace Utf8

def cont (b : UInt8) : Prop :=
  0x80 ≤ b.toNat ∧ b.toNat < 0xC0

instance (b : UInt8) : Decidable (cont b) :=
  inferInstanceAs (Decidable (_ ∧ _))

def encodeChar (c : Fin 0x110000) : Option Bytes :=
  let n := c.val
  if n < 0x80 then some [UInt8.ofNat n]
  else if n < 0x800 then some [UInt8.ofNat (0xC0 + n / 64), UInt8.ofNat (0x80 + n % 64)]
  else if 0xD800 ≤ n ∧ n < 0xE000 then none
  else if n < 0x10000 then
    some [UInt8.ofNat (0xE0 + n / 4096), UInt8.ofNat (0x80 + n / 64 % 64),
      UInt8.ofNat (0x80 + n % 64)]
  else
    some [UInt8.ofNat (0xF0 + n / 262144), UInt8.ofNat (0x80 + n / 4096 % 64),
      UInt8.ofNat (0x80 + n / 64 % 64), UInt8.ofNat (0x80 + n % 64)]

def encode : PyStr → Option Bytes
  | [] => some []
  | c :: cs => do
    let b ← encodeChar c
    let bs ← encode cs
    pure (b ++ bs)

def codePoint? (n : Nat) : Option (Fin 0x110000) :=
  if h : n < 0x110000 then some ⟨n, h⟩ else none

def consChar (n : Nat) (rest : Option PyStr) : Option PyStr := do
  let c ← codePoint? n
  let cs ← rest
  pure (c :: cs)

def seqLength (a : UInt8) : Nat :=
  if a.toNat < 0x80 then 1
  else if a.toNat < 0xC0 then 0
  else if a.toNat < 0xE0 then 2
  else if a.toNat < 0xF0 then 3
  else if a.toNat < 0xF8 then 4
  else 0

def decode : Bytes → Option PyStr
  | [] => some []
  | a :: rest =>
    match seqLength a, rest with
    | 1, rest => consChar a.toNat (decode rest)
    | 2, b :: rest =>
      let n := (a.toNat - 0xC0) * 64 + (b.toNat - 0x80)
      if cont b ∧ 0x80 ≤ n then consChar n (decode rest) else none
    | 3, b :: c :: rest =>
      let n := (a.toNat - 0xE0) * 4096 + (b.toNat - 0x80) * 64 + (c.toNat - 0x80)
      if cont b ∧ cont c ∧ 0x800 ≤ n ∧ ¬(0xD800 ≤ n ∧ n < 0xE000) then
        consChar n (decode rest) else none
    | 4, b :: c :: d :: rest =>
      let n := (a.toNat - 0xF0) * 262144 + (b.toNat - 0x80) * 4096 + (c.toNat - 0x80) * 64
        + (d.toNat - 0x80)
      if cont b ∧ cont c ∧ cont d ∧ 0x10000 ≤ n then consChar n (decode rest) else none
    | _, _ => none

example : encode [⟨104, by omega⟩, ⟨0xE9, by omega⟩] = some [104, 0xC3, 0xA9] := by decide
example : decode [104, 0xC3, 0xA9] = some [⟨104, by omega⟩, ⟨0xE9, by omega⟩] := by decide
example : encode [⟨0xD800, by omega⟩] = none := by decide
example : decode [0xC0, 0x80] = none := by decide

theorem decode_one {a : UInt8} (rest : Bytes) (h : a.toNat < 0x80) :
    decode (a :: rest) = consChar a.toNat (decode rest) := by
  have : seqLength a = 1 := by simp [seqLength, h]
  simp only [decode, this]

theorem decode_two {a : UInt8} (b : UInt8) (rest : Bytes) (h1 : 0xC0 ≤ a.toNat)
    (h2 : a.toNat < 0xE0) :
    decode (a :: b :: rest) =
      if cont b ∧ 0x80 ≤ (a.toNat - 0xC0) * 64 + (b.toNat - 0x80) then
        consChar ((a.toNat - 0xC0) * 64 + (b.toNat - 0x80)) (decode rest) else none := by
  have : seqLength a = 2 := by simp only [seqLength]; split_ifs <;> omega
  simp only [decode, this]

theorem decode_three {a : UInt8} (b c : UInt8) (rest : Bytes) (h1 : 0xE0 ≤ a.toNat)
    (h2 : a.toNat < 0xF0) :
    decode (a :: b :: c :: rest) =
      let n := (a.toNat - 0xE0) * 4096 + (b.toNat - 0x80) * 64 + (c.toNat - 0x80)
      if cont b ∧ cont c ∧ 0x800 ≤ n ∧ ¬(0xD800 ≤ n ∧ n < 0xE000) then
        consChar n (decode rest) else none := by
  have : seqLength a = 3 := by simp only [seqLength]; split_ifs <;> omega
  simp only [decode, this]

theorem decode_four {a : UInt8} (b c d : UInt8) (rest : Bytes) (h1 : 0xF0 ≤ a.toNat)
    (h2 : a.toNat < 0xF8) :
    decode (a :: b :: c :: d :: rest) =
      let n := (a.toNat - 0xF0) * 262144 + (b.toNat - 0x80) * 4096 + (c.toNat - 0x80) * 64
        + (d.toNat - 0x80)
      if cont b ∧ cont c ∧ cont d ∧ 0x10000 ≤ n then consChar n (decode rest) else none := by
  have : seqLength a = 4 := by simp only [seqLength]; split_ifs <;> omega
  simp only [decode, this]

theorem consChar_val (c : Fin 0x110000) (rest : Option PyStr) :
    consChar c.val rest = (c :: ·) <$> rest := by
  cases rest <;> simp [consChar, codePoint?, c.isLt]

theorem decode_encodeChar (c : Fin 0x110000) (b rest : Bytes) (h : encodeChar c = some b) :
    decode (b ++ rest) = (c :: ·) <$> decode rest := by
  rw [← consChar_val]
  obtain ⟨n, hn⟩ := c
  simp only [encodeChar] at h
  split_ifs at h with h1 h2 h3 h4 <;> cases h
  · have e := UInt8.toNat_ofNat_of_lt (show n < 256 by omega)
    rw [List.singleton_append, decode_one _ (by rw [e]; omega), e]
  · have e1 := UInt8.toNat_ofNat_of_lt (show 0xC0 + n / 64 < 256 by omega)
    have e2 := UInt8.toNat_ofNat_of_lt (show 0x80 + n % 64 < 256 by omega)
    have hv : (0xC0 + n / 64 - 0xC0) * 64 + (0x80 + n % 64 - 0x80) = n := by
      simp only [Nat.add_sub_cancel_left]; omega
    rw [List.cons_append, List.singleton_append, decode_two _ _ (by omega) (by omega)]
    simp only [cont, e1, e2, hv]
    rw [if_pos (by omega)]
  · have e1 := UInt8.toNat_ofNat_of_lt (show 0xE0 + n / 4096 < 256 by omega)
    have e2 := UInt8.toNat_ofNat_of_lt (show 0x80 + n / 64 % 64 < 256 by omega)
    have e3 := UInt8.toNat_ofNat_of_lt (show 0x80 + n % 64 < 256 by omega)
    have hv : (0xE0 + n / 4096 - 0xE0) * 4096 + (0x80 + n / 64 % 64 - 0x80) * 64 +
        (0x80 + n % 64 - 0x80) = n := by simp only [Nat.add_sub_cancel_left]; omega
    rw [List.cons_append, List.cons_append, List.singleton_append,
      decode_three _ _ _ (by omega) (by omega)]
    simp only [cont, e1, e2, e3, hv]
    rw [if_pos (by omega)]
  · have e1 := UInt8.toNat_ofNat_of_lt (show 0xF0 + n / 262144 < 256 by omega)
    have e2 := UInt8.toNat_ofNat_of_lt (show 0x80 + n / 4096 % 64 < 256 by omega)
    have e3 := UInt8.toNat_ofNat_of_lt (show 0x80 + n / 64 % 64 < 256 by omega)
    have e4 := UInt8.toNat_ofNat_of_lt (show 0x80 + n % 64 < 256 by omega)
    have hv : (0xF0 + n / 262144 - 0xF0) * 262144 + (0x80 + n / 4096 % 64 - 0x80) * 4096 +
        (0x80 + n / 64 % 64 - 0x80) * 64 + (0x80 + n % 64 - 0x80) = n := by
      simp only [Nat.add_sub_cancel_left]; omega
    rw [List.cons_append, List.cons_append, List.cons_append, List.singleton_append,
      decode_four _ _ _ _ (by omega) (by omega)]
    simp only [cont, e1, e2, e3, e4, hv]
    rw [if_pos (by omega)]

theorem decode_encode {s : PyStr} {b : Bytes} (h : encode s = some b) : decode b = some s := by
  induction s generalizing b with
  | nil => cases h; rfl
  | cons c cs ih =>
    simp only [encode, Option.bind_eq_bind, Option.bind_eq_some, Option.pure_def,
      Option.some.injEq] at h
    obtain ⟨bc, hc, bs, hs, rfl⟩ := h
    rw [decode_encodeChar c bc bs hc, ih hs]
    rfl

theorem seqLength_spec (a : UInt8) :
    (seqLength a = 1 → a.toNat < 0x80) ∧ (seqLength a = 2 → 0xC0 ≤ a.toNat ∧ a.toNat < 0xE0) ∧
      (seqLength a = 3 → 0xE0 ≤ a.toNat ∧ a.toNat < 0xF0) ∧
      (seqLength a = 4 → 0xF0 ≤ a.toNat ∧ a.toNat < 0xF8) := by
  unfold seqLength
  split_ifs <;> simp <;> omega

theorem consChar_eq_some {n : Nat} {rest : Option PyStr} {s : PyStr}
    (h : consChar n rest = some s) :
    ∃ (hn : n < 0x110000) (s' : PyStr), rest = some s' ∧ s = ⟨n, hn⟩ :: s' := by
  simp only [consChar, codePoint?, Option.bind_eq_bind, Option.bind_eq_some, Option.pure_def,
    Option.some.injEq] at h
  obtain ⟨c, hc, s', hs', rfl⟩ := h
  split at hc
  · cases hc
    exact ⟨_, s', hs', rfl⟩
  · cases hc

theorem encode_cons_of {c : Fin 0x110000} {s : PyStr} {bc bs : Bytes} (hc : encodeChar c = some bc)
    (hs : encode s = some bs) : encode (c :: s) = some (bc ++ bs) := by
  simp [encode, hc, hs]

theorem encode_of_consChar {n : Nat} {seq rest : Bytes} {s : PyStr}
    (hc : ∀ hlt, encodeChar ⟨n, hlt⟩ = some seq)
    (ih : ∀ {s'}, decode rest = some s' → encode s' = some rest)
    (h : consChar n (decode rest) = some s) : encode s = some (seq ++ rest) := by
  obtain ⟨hlt, s', hs', rfl⟩ := consChar_eq_some h
  exact encode_cons_of (hc hlt) (ih hs')

theorem ofNat_eq {x : UInt8} {n : Nat} (h : n = x.toNat) : UInt8.ofNat n = x :=
  UInt8.toNat.inj (by rw [UInt8.toNat_ofNat_of_lt (h ▸ x.toNat_lt_size)]; exact h)

theorem div_mod_64 {q r : Nat} (h : r < 64) : (q * 64 + r) / 64 = q ∧ (q * 64 + r) % 64 = r := by
  omega

/-! Each sequence `decode` accepts is the one `encodeChar` writes for the code point it reads. -/

theorem encodeChar_one {a : UInt8} (h : a.toNat < 0x80) (hlt) :
    encodeChar ⟨a.toNat, hlt⟩ = some [a] := by
  simp only [encodeChar]
  rw [if_pos h, ofNat_eq (x := a) rfl]

theorem encodeChar_two {a b : UInt8} (h1 : 0xC0 ≤ a.toNat) (h2 : a.toNat < 0xE0) (hb : cont b)
    (hn : 0x80 ≤ (a.toNat - 0xC0) * 64 + (b.toNat - 0x80)) (hlt) :
    encodeChar ⟨(a.toNat - 0xC0) * 64 + (b.toNat - 0x80), hlt⟩ = some [a, b] := by
  obtain ⟨hb1, hb2⟩ := hb
  simp only [encodeChar]
  rw [if_neg (by omega), if_pos (by omega), ofNat_eq (x := a) (by omega),
    ofNat_eq (x := b) (by omega)]

theorem encodeChar_three {a b c : UInt8} (h1 : 0xE0 ≤ a.toNat) (h2 : a.toNat < 0xF0) (hb : cont b)
    (hc : cont c)
    (hn : 0x800 ≤ (a.toNat - 0xE0) * 4096 + (b.toNat - 0x80) * 64 + (c.toNat - 0x80))
    (hs : ¬(0xD800 ≤ (a.toNat - 0xE0) * 4096 + (b.toNat - 0x80) * 64 + (c.toNat - 0x80) ∧
      (a.toNat - 0xE0) * 4096 + (b.toNat - 0x80) * 64 + (c.toNat - 0x80) < 0xE000)) (hlt) :
    encodeChar ⟨(a.toNat - 0xE0) * 4096 + (b.toNat - 0x80) * 64 + (c.toNat - 0x80), hlt⟩ =
      some [a, b, c] := by
  obtain ⟨hb1, hb2⟩ := hb
  obtain ⟨hc1, hc2⟩ := hc
  have e : (a.toNat - 0xE0) * 4096 + (b.toNat - 0x80) * 64 + (c.toNat - 0x80) =
      ((a.toNat - 0xE0) * 64 + (b.toNat - 0x80)) * 64 + (c.toNat - 0x80) := by omega
  obtain ⟨q₁, r₁⟩ := div_mod_64 (q := (a.toNat - 0xE0) * 64 + (b.toNat - 0x80))
    (show c.toNat - 0x80 < 64 by omega)
  obtain ⟨q₂, r₂⟩ := div_mod_64 (q := a.toNat - 0xE0) (show b.toNat - 0x80 < 64 by omega)
  simp only [encodeChar]
  rw [if_neg (by omega), if_neg (by omega), if_neg hs, if_pos (by omega)]
  simp only [e, show 4096 = 64 * 64 from rfl, ← Nat.div_div_eq_div_mul, q₁, r₁, q₂, r₂]
  rw [ofNat_eq (x := a) (by omega), ofNat_eq (x := b) (by omega), ofNat_eq (x := c) (by omega)]

theorem encodeChar_four {a b c d : UInt8} (h1 : 0xF0 ≤ a.toNat) (hb : cont b) (hc : cont c)
    (hd : cont d)
    (hn : 0x10000 ≤ (a.toNat - 0xF0) * 262144 + (b.toNat - 0x80) * 4096 + (c.toNat - 0x80) * 64
      + (d.toNat - 0x80)) (hlt) :
    encodeChar ⟨(a.toNat - 0xF0) * 262144 + (b.toNat - 0x80) * 4096 + (c.toNat - 0x80) * 64
      + (d.toNat - 0x80), hlt⟩ = some [a, b, c, d] := by
  obtain ⟨hb1, hb2⟩ := hb
  obtain ⟨hc1, hc2⟩ := hc
  obtain ⟨hd1, hd2⟩ := hd
  have e : (a.toNat - 0xF0) * 262144 + (b.toNat - 0x80) * 4096 + (c.toNat - 0x80) * 64
      + (d.toNat - 0x80) = (((a.toNat - 0xF0) * 64 + (b.toNat - 0x80)) * 64 + (c.toNat - 0x80))
        * 64 + (d.toNat - 0x80) := by omega
  obtain ⟨q₁, r₁⟩ := div_mod_64
    (q := ((a.toNat - 0xF0) * 64 + (b.toNat - 0x80)) * 64 + (c.toNat - 0x80))
    (show d.toNat - 0x80 < 64 by omega)
  obtain ⟨q₂, r₂⟩ := div_mod_64 (q := (a.toNat - 0xF0) * 64 + (b.toNat - 0x80))
    (show c.toNat - 0x80 < 64 by omega)
  obtain ⟨q₃, r₃⟩ := div_mod_64 (q := a.toNat - 0xF0) (show b.toNat - 0x80 < 64 by omega)
  simp only [encodeChar]
  rw [if_neg (by omega), if_neg (by omega), if_neg (by omega), if_neg (by omega)]
  simp only [e, show 262144 = 64 * 64 * 64 from rfl, show 4096 = 64 * 64 from rfl,
    ← Nat.div_div_eq_div_mul, q₁, r₁, q₂, r₂, q₃, r₃]
  rw [ofNat_eq (x := a) (by omega), ofNat_eq (x := b) (by omega), ofNat_eq (x := c) (by omega),
    ofNat_eq (x := d) (by omega)]

/-- `content.decode()` accepts only what `encode` writes: every byte string it decodes is the
encoding of the result, so no overlong form, surrogate or stray continuation byte gets through. -/
theorem encode_decode {b : Bytes} {s : PyStr} (h : decode b = some s) : encode s = some b := by
  induction b using decode.induct generalizing s with
  | case1 => cases h; rfl
  | case2 a rest hseq ih =>
    have ha := (seqLength_spec a).1 hseq
    rw [decode_one rest ha] at h
    exact encode_of_consChar (encodeChar_one ha) ih h
  | case3 a b rest hseq =>
    rename_i hv ih
    obtain ⟨h1, h2⟩ := (seqLength_spec a).2.1 hseq
    rw [decode_two b rest h1 h2, if_pos hv] at h
    exact encode_of_consChar (encodeChar_two h1 h2 hv.1 hv.2) ih h
  | case4 a b rest hseq =>
    rename_i hv
    obtain ⟨h1, h2⟩ := (seqLength_spec a).2.1 hseq
    rw [decode_two b rest h1 h2, if_neg hv] at h
    cases h
  | case5 a b c rest hseq =>
    rename_i hv ih
    obtain ⟨h1, h2⟩ := (seqLength_spec a).2.2.1 hseq
    rw [decode_three b c rest h1 h2, if_pos hv] at h
    exact encode_of_consChar (encodeChar_three h1 h2 hv.1 hv.2.1 hv.2.2.1 hv.2.2.2) ih h
  | case6 a b c rest hseq =>
    rename_i hv
    obtain ⟨h1, h2⟩ := (seqLength_spec a).2.2.1 hseq
    rw [decode_three b c rest h1 h2, if_neg hv] at h
    cases h
  | case7 a b c d rest hseq =>
    rename_i hv ih
    obtain ⟨h1, h2⟩ := (seqLength_spec a).2.2.2 hseq
    rw [decode_four b c d rest h1 h2, if_pos hv] at h
    exact encode_of_consChar (encodeChar_four h1 hv.1 hv.2.1 hv.2.2.1 hv.2.2.2) ih h
  | case8 a b c d rest hseq =>
    rename_i hv
    obtain ⟨h1, h2⟩ := (seqLength_spec a).2.2.2 hseq
    rw [decode_four b c d rest h1 h2, if_neg hv] at h
    cases h
  | case9 a rest h1 h2 h3 h4 =>
    -- a lead byte no sequence starts with, or a sequence cut short by the end of the bytes
    unfold decode at h
    split at h
    next => exact (h1 ‹_›).elim
    next => exact (h2 _ _ ‹_› rfl).elim
    next => exact (h3 _ _ _ ‹_› rfl).elim
    next => exact (h4 _ _ _ _ ‹_› rfl).elim
    next => cases h

theorem encode_decode_eAcute :
    decode [104, 0xC3, 0xA9] = some [⟨104, by omega⟩, ⟨0xE9, by omega⟩] ∧
      encode [⟨104, by omega⟩, ⟨0xE9, by omega⟩] = some [104, 0xC3, 0xA9] :=
  ⟨by decide, encode_decode (by decide)⟩

theorem encodeChar_isSome_iff (c : Fin 0x110000) :
    (encodeChar c).isSome ↔ ¬(0xD800 ≤ c.val ∧ c.val < 0xE000) := by
  simp only [encodeChar]
  split_ifs <;> simp <;> omega

theorem encode_isSome_iff (s : PyStr) :
    (encode s).isSome ↔ ∀ c ∈ s, ¬(0xD800 ≤ c.val ∧ c.val < 0xE000) := by
  induction s with
  | nil => simp [encode]
  | cons c cs ih =>
    rw [List.forall_mem_cons, ← ih, ← encodeChar_isSome_iff]
    simp only [encode, Option.bind_eq_bind, Option.pure_def]
    cases encodeChar c <;> cases encode cs <;> simp

theorem toNat_valid (c : Char) :
    c.toNat < 0xD800 ∨ (0xDFFF < c.toNat ∧ c.toNat < 0x110000) := by
  have h := c.valid
  simp only [UInt32.isValidChar, UInt32.lt_def, BitVec.lt_def] at h
  exact h

theorem toNat_lt (c : Char) : c.toNat < 0x110000 := by
  rcases toNat_valid c with h | h <;> omega

def ofString (s : String) : PyStr :=
  s.data.map fun c => ⟨c.toNat, toNat_lt c⟩

def encodeString (s : String) : Bytes :=
  (encode (ofString s)).getD []

end Utf8

end BlockchainMessaging
