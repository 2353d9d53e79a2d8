import Mathlib.Data.List.Forall2
import ZenDB.Lib.Bytes

namespace ZenDB

/-! The text form of workspace ids: 26 digits of Crockford Base32. -/

def workspaceIdAlphabet : Bytes := "0123456789ABCDEFGHJKMNPQRSTVWXYZ".toList.map Char.toUInt8

def workspaceIdTextLen : Nat := 26

structure WorkspaceId where
  bytes : Bytes
  size : bytes.length = 16

inductive WorkspaceIdParseError where
  | invalidLength
  | invalidCharacter
  | overflow
  deriving DecidableEq

/-- The bytes of a `&str`. -/
def strBytes (s : String) : Bytes := s.toUTF8.data.toList

def toAsciiUppercase (byte : UInt8) : UInt8 := if 97 ≤ byte ∧ byte ≤ 122 then byte-32 else byte

/-- The `match` of `from_str` on the code of the letter; `none` is its last arm. -/
def base32Digit (byte : UInt8) : Option Nat :=
  match (toAsciiUppercase byte).toNat with
  | 48 | 79 => some 0  -- b'0' | b'O'
  | 49 | 73 | 76 => some 1  -- b'1' | b'I' | b'L'
  | 50 | 51 | 52 | 53 | 54 | 55 | 56 | 57 => some (byte-48).toNat  -- b'2'..=b'9'
  | 65 => some 10  -- b'A'
  | 66 => some 11  -- b'B'
  | 67 => some 12  -- b'C'
  | 68 => some 13  -- b'D'
  | 69 => some 14  -- b'E'
  | 70 => some 15  -- b'F'
  | 71 => some 16  -- b'G'
  | 72 => some 17  -- b'H'
  | 74 => some 18  -- b'J'
  | 75 => some 19  -- b'K'
  | 77 => some 20  -- b'M'
  | 78 => some 21  -- b'N'
  | 80 => some 22  -- b'P'
  | 81 => some 23  -- b'Q'
  | 82 => some 24  -- b'R'
  | 83 => some 25  -- b'S'
  | 84 => some 26  -- b'T'
  | 86 => some 27  -- b'V'
  | 87 => some 28  -- b'W'
  | 88 => some 29  -- b'X'
  | 89 => some 30  -- b'Y'
  | 90 => some 31  -- b'Z'
  | _ => none

namespace WorkspaceId

/-- `u128::from_be_bytes`. -/
def value (id : WorkspaceId) : Nat := leNat id.bytes.reverse

/-- `u128::to_be_bytes`. -/
def ofValue (value : Nat) : WorkspaceId := 
  ⟨(leBytes 16 value).reverse, List.length_reverse.trans (length_leBytes 16 value)⟩

/-- The index is below 32, so the default is never taken. -/
def display (id : WorkspaceId) : String :=
  String.ofList ((List.range workspaceIdTextLen).map fun index =>
    Char.ofUInt8 (workspaceIdAlphabet.getD ((id.value >>> (125-index*5)) &&& 0x1f) 0))

/-- The loop of `from_str`; shifting a `u128` loses what goes beyond 128 bits. -/
def decodeDigits : Nat → Nat → Bytes → Except WorkspaceIdParseError Nat
  | _, decoded, [] => .ok decoded
  | index, decoded, byte :: rest =>
    match base32Digit byte with
    | none => .error .invalidCharacter
    | some digit =>
      if index = 0 then
        if digit > 7 then .error .overflow else decodeDigits (index+1) digit rest
      else decodeDigits (index+1) ((decoded <<< 5) % 2^128 ||| digit) rest

def fromStr (value : String) : Except WorkspaceIdParseError WorkspaceId :=
  if (strBytes value).length ≠ workspaceIdTextLen then .error .invalidLength
  else (decodeDigits 0 0 (strBytes value)).map ofValue

/-- Upper case, with the aliases replaced. -/
def canonicalByte (byte : UInt8) : UInt8 :=
  match (toAsciiUppercase byte).toNat with
  | 79 => 48  -- O as 0
  | 73 | 76 => 49  -- I and L as 1
  | _ => toAsciiUppercase byte

def canonical (s : String) : Bytes := (strBytes s).map canonicalByte

theorem forall_byte {P : UInt8 → Prop} (h : ∀ n : Fin 256, P (UInt8.ofNat n)) (byte : UInt8) : P byte := by
  have hbyte := h ⟨byte.toNat, byte.toNat_lt⟩
  rwa [UInt8.ofNat_toNat] at hbyte

/-- The letter of a digit, and the text of several. -/
def letter (digit : Nat) : UInt8 := workspaceIdAlphabet.getD digit 0

def text (digits : List Nat) : Bytes := digits.map letter

section Alphabet

variable {byte : UInt8} {digit : Nat}

theorem workspaceIdAlphabet_eq : workspaceIdAlphabet = text (List.range 32) := rfl

theorem take_workspaceIdAlphabet : workspaceIdAlphabet.take 8 = text (List.range 8) := rfl

theorem mem_text_range {c : UInt8} {n : Nat} : c ∈ text (List.range n) ↔ ∃ d < n, letter d = c := by
  simp only [text, List.mem_map, List.mem_range]

/-- What the two functions do on the letters and on all bytes. -/
theorem letter_facts : ∀ d < 32, canonicalByte (letter d) = letter d ∧ base32Digit (letter d) = some d ∧
    String.utf8EncodeChar (Char.ofUInt8 (letter d)) = [letter d] := by
  decide +kernel

theorem byte_facts : ∀ byte, (∀ d ∈ base32Digit byte, d < 32 ∧ canonicalByte byte = letter d) ∧
    base32Digit (canonicalByte byte) = base32Digit byte :=
  forall_byte (by decide +kernel)

/-- A byte is read as a digit exactly when its canonical form is the letter of that digit. -/
theorem base32Digit_eq_some :
    base32Digit byte = some digit ↔ digit < 32 ∧ canonicalByte byte = letter digit := by
  obtain ⟨hletter, hcanonical⟩ := byte_facts byte
  refine ⟨hletter digit, fun h => ?_⟩
  rw [← hcanonical, h.2]
  exact (letter_facts digit h.1).2.1

end Alphabet

theorem text_injective {ds ds' : List Nat} (hlt : ∀ d ∈ ds, d < 32) (hlt' : ∀ d ∈ ds', d < 32)
    (h : text ds = text ds') : ds = ds' := by
  have hread : ∀ ds : List Nat, (∀ d ∈ ds, d < 32) → (text ds).map base32Digit = ds.map some := by
    intro ds hlt
    rw [text, List.map_map]
    exact List.map_congr_left fun d hd => (letter_facts d (hlt d hd)).2.1
  have heq := congrArg (List.map base32Digit) h
  rw [hread ds hlt, hread ds' hlt'] at heq
  exact List.map_injective_iff.mpr (Option.some_injective _) heq

/-- The bytes of a text are its letters. -/
theorem strBytes_text {ds : List Nat} (hlt : ∀ d ∈ ds, d < 32) :
    strBytes (String.ofList ((text ds).map Char.ofUInt8)) = text ds := by
  rw [strBytes, String.toUTF8, String.toByteArray_ofList, List.utf8Encode, List.toList_data_toByteArray]
  induction ds with
  | nil => rfl
  | cons d ds ih =>
    obtain ⟨hd, hds⟩ := List.forall_mem_cons.mp hlt
    rw [text, List.map_cons, List.map_cons, List.flatMap_cons, (letter_facts d hd).2.2]
    exact congrArg (letter d :: ·) (ih hds)

section Radix

/-- The number whose further digits follow those of `acc`. -/
def ofDigits (acc : Nat) (ds : List Nat) : Nat := ds.foldl (fun acc d => acc*32+d) acc

/-- The last `n` digits. -/
def digits : Nat → Nat → List Nat
  | 0, _ => []
  | n+1, v => v/32^n%32 :: digits n v

variable {ds : List Nat}

theorem ofDigits_div (acc : Nat) (hlt : ∀ d ∈ ds, d < 32) : ofDigits acc ds / 32^ds.length = acc := by
  induction ds generalizing acc with
  | nil => exact Nat.div_one acc
  | cons d ds ih =>
    obtain ⟨hd, hds⟩ := List.forall_mem_cons.mp hlt
    have hrest : ofDigits acc (d :: ds) / 32^ds.length = acc*32+d := ih (acc*32+d) hds
    rw [List.length_cons, Nat.pow_succ, ← Nat.div_div_eq_div_mul, hrest]
    omega

theorem digits_ofDigits (acc : Nat) (hlt : ∀ d ∈ ds, d < 32) : digits ds.length (ofDigits acc ds) = ds := by
  induction ds generalizing acc with
  | nil => rfl
  | cons d ds ih =>
    obtain ⟨hd, hds⟩ := List.forall_mem_cons.mp hlt
    have hfirst : ofDigits acc (d :: ds) / 32^ds.length = acc*32+d := ofDigits_div (acc*32+d) hds
    have hrest : digits ds.length (ofDigits acc (d :: ds)) = ds := ih (acc*32+d) hds
    rw [List.length_cons, digits, hfirst, hrest, show (acc*32+d)%32 = d by omega]

theorem ofDigits_digits (n v : Nat) : ofDigits (v/32^n) (digits n v) = v := by
  induction n with
  | zero => exact Nat.div_one v
  | succ n ih =>
    have hacc : v/32^(n+1)*32+v/32^n%32 = v/32^n := by
      rw [Nat.pow_succ, ← Nat.div_div_eq_div_mul]
      omega
    show ofDigits (v/32^(n+1)*32+v/32^n%32) (digits n v) = v
    rw [hacc, ih]

theorem ofDigits_zero_cons (d : Nat) (ds : List Nat) : ofDigits 0 (d :: ds) = ofDigits d ds := by
  rw [ofDigits, List.foldl_cons, Nat.zero_mul, Nat.zero_add]
  rfl

theorem length_digits (n v : Nat) : (digits n v).length = n := by
  induction n with
  | zero => rfl
  | succ n ih => rw [digits, List.length_cons, ih]

theorem digits_lt {n v d : Nat} (h : d ∈ digits n v) : d < 32 := by
  induction n with
  | zero => cases h
  | succ n ih =>
    rcases List.mem_cons.mp h with rfl | h
    · exact Nat.mod_lt _ (by decide)
    · exact ih h

end Radix

/-- The digits of a number of 128 bits: 26 of them hold 130. -/
structure IsDigits (ds : List Nat) : Prop where
  length : ds.length = workspaceIdTextLen
  lt : ∀ d ∈ ds, d < 32
  first : ∀ d ∈ ds.head?, d ≤ 7

theorem IsDigits.ofDigits_lt {ds : List Nat} (h : IsDigits ds) : ofDigits 0 ds < 2^128 := by
  cases ds with
  | nil => cases h.length
  | cons d ds =>
    have hlen : ds.length = 25 := Nat.succ.inj h.length
    have hfirst : d ≤ 7 := h.first d rfl
    have hdiv := ofDigits_div d (List.forall_mem_cons.mp h.lt).2
    rw [hlen] at hdiv
    rw [ofDigits_zero_cons]
    omega

theorem isDigits_digits {v : Nat} (h : v < 2^128) : IsDigits (digits workspaceIdTextLen v) := by
  refine ⟨length_digits _ v, fun d hd => digits_lt hd, ?_⟩
  intro d hd
  obtain rfl : v/32^25%32 = d := Option.some.inj hd
  omega

theorem value_lt (id : WorkspaceId) : id.value < 2^128 := by
  have h := leNat_lt id.bytes.reverse
  rwa [List.length_reverse, id.size, show 256^16 = 2^128 by decide] at h

theorem value_ofValue {v : Nat} (h : v < 2^128) : (ofValue v).value = v := by
  rw [value, ofValue, List.reverse_reverse]
  exact leNat_leBytes_of_lt 16 v h

theorem ofValue_value (id : WorkspaceId) : ofValue id.value = id := by
  obtain ⟨bytes, hsize⟩ := id
  rw [ofValue, mk.injEq, value]
  have hround := leBytes_leNat bytes.reverse
  rw [List.length_reverse, hsize] at hround
  rw [hround, List.reverse_reverse]

/-- The loop that shifts and masks computes the digits. -/
theorem display_eq (id : WorkspaceId) :
    id.display = String.ofList ((text (digits workspaceIdTextLen id.value)).map Char.ofUInt8) := by
  have hdigit : ∀ index ∈ List.range 26, (id.value >>> (125-index*5)) &&& 0x1f = id.value/32^(25-index)%32 := by
    intro index hindex
    have hlt := List.mem_range.mp hindex
    have hmask := Nat.and_two_pow_sub_one_eq_mod (id.value >>> (125-index*5)) 5
    have hpow : 2^(125-index*5) = 32^(25-index) := by
      rw [show 125-index*5 = 5*(25-index) by omega, Nat.pow_mul]
    rw [Nat.shiftRight_eq_div_pow, hpow] at hmask ⊢
    exact hmask
  have hdigits : digits 26 id.value = (List.range 26).map fun index => id.value/32^(25-index)%32 := rfl
  rw [display, text, workspaceIdTextLen, hdigits, List.map_map, List.map_map]
  refine congrArg String.ofList (List.map_congr_left ?_)
  intro index hindex
  rw [hdigit index hindex]
  rfl

section Decode

variable {s : String} {bs : Bytes} {id id' : WorkspaceId}

theorem shift_or {decoded digit : Nat} (h : decoded*32 < 2^128) (hd : digit < 32) :
    (decoded <<< 5) % 2^128 ||| digit = decoded*32+digit := by
  rw [Nat.mod_eq_of_lt (by rwa [Nat.shiftLeft_eq]), ← Nat.shiftLeft_add_eq_or_of_lt hd, Nat.shiftLeft_eq]

/-- The digits that the bytes are read as. -/
def Reads : Bytes → List Nat → Prop := List.Forall₂ fun b d => base32Digit b = some d

theorem not_reads_cons {b : UInt8} (hb : base32Digit b = none) (ds : List Nat) : ¬ Reads (b :: bs) ds := by
  intro h
  obtain ⟨d, _, hd, -⟩ := List.forall₂_cons_left_iff.mp h
  cases hb.symm.trans hd

theorem reads_cons {b : UInt8} {d : Nat} (hb : base32Digit b = some d) (ds : List Nat) :
    Reads (b :: bs) ds ↔ ∃ ds', ds = d :: ds' ∧ Reads bs ds' := by
  constructor
  · intro h
    obtain ⟨d', ds', hd, hds, rfl⟩ := List.forall₂_cons_left_iff.mp h
    cases hb.symm.trans hd
    exact ⟨ds', rfl, hds⟩
  · rintro ⟨ds', rfl, hds⟩
    exact .cons hb hds

/-- Behind the first digit nothing is shifted out. -/
theorem decodeDigits_rest {index decoded : Nat} (h : decoded < 8*32^index) (hlen : index+bs.length ≤ 25)
    (v : Nat) : decodeDigits (index+1) decoded bs = .ok v ↔
      ∃ ds, Reads bs ds ∧ v = ofDigits decoded ds := by
  induction bs generalizing index decoded with
  | nil =>
    rw [decodeDigits, Except.ok.injEq]
    simp [Reads, ofDigits, eq_comm]
  | cons b bs ih =>
    rw [decodeDigits]
    cases hb : base32Digit b with
    | none =>
      refine ⟨nofun, ?_⟩
      rintro ⟨ds, hds, -⟩
      exact absurd hds (not_reads_cons hb ds)
    | some d =>
      rw [List.length_cons] at hlen
      have hd := (base32Digit_eq_some.mp hb).1
      have hpow : 32^(index+1) ≤ 32^25 := Nat.pow_le_pow_right (by decide) (by omega)
      rw [Nat.pow_succ] at hpow
      have hnext : decoded*32+d < 8*32^(index+1) := by
        rw [Nat.pow_succ]
        omega
      dsimp only
      rw [if_neg (Nat.succ_ne_zero index), shift_or (by omega) hd, ih hnext (by omega)]
      constructor
      · rintro ⟨ds, hds, hv⟩
        exact ⟨d :: ds, .cons hb hds, hv⟩
      · rintro ⟨ds, hds, hv⟩
        obtain ⟨ds, rfl, hrest⟩ := (reads_cons hb ds).mp hds
        exact ⟨ds, hrest, hv⟩

theorem decodeDigits_eq (hlen : bs.length = 26) (v : Nat) : decodeDigits 0 0 bs = .ok v ↔
    ∃ ds, Reads bs ds ∧ (∀ d ∈ ds.head?, d ≤ 7) ∧
      v = ofDigits 0 ds := by
  cases bs with
  | nil => cases hlen
  | cons b bs =>
    rw [decodeDigits]
    cases hb : base32Digit b with
    | none =>
      refine ⟨nofun, ?_⟩
      rintro ⟨ds, hds, -⟩
      exact absurd hds (not_reads_cons hb ds)
    | some d =>
      have hrest : 0+bs.length ≤ 25 := by
        rw [List.length_cons] at hlen
        omega
      dsimp only
      rw [if_pos rfl]
      split_ifs with hover
      · refine ⟨nofun, ?_⟩
        rintro ⟨ds, hds, hle, -⟩
        obtain ⟨ds, rfl, -⟩ := (reads_cons hb ds).mp hds
        exact absurd (hle d rfl) (by omega)
      · rw [decodeDigits_rest (by omega) hrest]
        constructor
        · rintro ⟨ds, hds, hv⟩
          refine ⟨d :: ds, .cons hb hds, ?_, hv.trans (ofDigits_zero_cons d ds).symm⟩
          intro d' hd'
          obtain rfl : d = d' := Option.some.inj hd'
          omega
        · rintro ⟨ds, hds, -, hv⟩
          obtain ⟨ds, rfl, hread⟩ := (reads_cons hb ds).mp hds
          exact ⟨ds, hread, hv.trans (ofDigits_zero_cons d ds)⟩

theorem reads_iff {ds : List Nat} :
    Reads bs ds ↔
      bs.map canonicalByte = text ds ∧ ∀ d ∈ ds, d < 32 := by
  constructor
  · intro h
    induction h with
    | nil => exact ⟨rfl, fun d hd => absurd hd List.not_mem_nil⟩
    | cons hb _ ih =>
      obtain ⟨hlt, hletter⟩ := base32Digit_eq_some.mp hb
      refine ⟨?_, List.forall_mem_cons.mpr ⟨hlt, ih.2⟩⟩
      rw [List.map_cons, hletter, ih.1]
      rfl
  · rintro ⟨h, hlt⟩
    induction ds generalizing bs with
    | nil =>
      obtain rfl := List.map_eq_nil_iff.mp h
      exact .nil
    | cons d ds ih =>
      obtain ⟨b, bs, rfl, hb, hbs⟩ := List.map_eq_cons_iff.mp h
      obtain ⟨hd, hds⟩ := List.forall_mem_cons.mp hlt
      exact .cons (base32Digit_eq_some.mpr ⟨hd, hb⟩) (ih hbs hds)

/-- What is parsed are the texts of 128 bits, up to case and aliases. -/
theorem fromStr_ok : fromStr s = .ok id ↔
    ∃ ds, IsDigits ds ∧ canonical s = text ds ∧ id = ofValue (ofDigits 0 ds) := by
  rw [fromStr]
  split_ifs with hlen
  · refine ⟨nofun, ?_⟩
    rintro ⟨ds, hds, htext, -⟩
    have hlen' := congrArg List.length htext
    rw [canonical, text, List.length_map, List.length_map, hds.length] at hlen'
    exact absurd hlen' hlen
  · rw [not_not] at hlen
    have hmap : (decodeDigits 0 0 (strBytes s)).map ofValue = .ok id ↔
        ∃ v, decodeDigits 0 0 (strBytes s) = .ok v ∧ ofValue v = id := by
      cases decodeDigits 0 0 (strBytes s) <;> simp [Except.map]
    rw [hmap]
    constructor
    · rintro ⟨v, hv, rfl⟩
      obtain ⟨ds, hds, hfirst, rfl⟩ := (decodeDigits_eq hlen v).mp hv
      obtain ⟨htext, hlt⟩ := reads_iff.mp hds
      exact ⟨ds, ⟨hds.length_eq.symm.trans hlen, hlt, hfirst⟩, htext, rfl⟩
    · rintro ⟨ds, hds, htext, rfl⟩
      have hread := reads_iff.mpr ⟨htext, hds.lt⟩
      exact ⟨_, (decodeDigits_eq hlen _).mpr ⟨ds, hread, hds.first, rfl⟩, rfl⟩

theorem fromStr_display (id : WorkspaceId) : fromStr id.display = .ok id := by
  have hds := isDigits_digits id.value_lt
  refine fromStr_ok.mpr ⟨_, hds, ?_, ?_⟩
  · rw [display_eq, canonical, strBytes_text hds.lt, text, List.map_map]
    exact List.map_congr_left fun d hd => (letter_facts d (hds.lt d hd)).1
  · have hzero : id.value/32^26 = 0 := by
      have hlt := id.value_lt
      omega
    have hround := ofDigits_digits 26 id.value
    rw [hzero] at hround
    rw [workspaceIdTextLen, hround, ofValue_value]

theorem strBytes_display_of_fromStr (h : fromStr s = .ok id) : strBytes id.display = canonical s := by
  obtain ⟨ds, hds, htext, rfl⟩ := fromStr_ok.mp h
  have hread := digits_ofDigits 0 hds.lt
  rw [hds.length] at hread
  rw [display_eq, value_ofValue hds.ofDigits_lt, hread, strBytes_text hds.lt, htext]

theorem fromStr_accepts : (∃ id, fromStr s = .ok id) ↔
    (strBytes s).length = 26 ∧ (∀ b ∈ strBytes s, canonicalByte b ∈ workspaceIdAlphabet) ∧
    ∀ b ∈ (strBytes s).head?, canonicalByte b ∈ workspaceIdAlphabet.take 8 := by
  constructor
  · rintro ⟨id, h⟩
    obtain ⟨ds, hds, htext, -⟩ := fromStr_ok.mp h
    have hread := reads_iff.mpr ⟨htext, hds.lt⟩
    refine ⟨hread.length_eq.trans hds.length, ?_, ?_⟩
    · intro b hb
      have hin : canonicalByte b ∈ text ds := htext ▸ List.mem_map_of_mem hb
      obtain ⟨d, hd, heq⟩ := List.mem_map.mp hin
      rw [workspaceIdAlphabet_eq]
      exact mem_text_range.mpr ⟨d, hds.lt d hd, heq⟩
    · intro b hb
      have hfirst : (text ds).head? = some (canonicalByte b) := by
        rw [← htext, canonical, List.head?_map, show (strBytes s).head? = some b from hb, Option.map_some]
      rw [text, List.head?_map, Option.map_eq_some_iff] at hfirst
      obtain ⟨d, hd, heq⟩ := hfirst
      rw [take_workspaceIdAlphabet]
      exact mem_text_range.mpr ⟨d, Nat.lt_succ_of_le (hds.first d hd), heq⟩
  · rintro ⟨hlen, hall, hfirst⟩
    have hread : ∀ b ∈ strBytes s, ∃ d < 32, base32Digit b = some d := by
      intro b hb
      have hin := hall b hb
      rw [workspaceIdAlphabet_eq] at hin
      obtain ⟨d, hd, heq⟩ := mem_text_range.mp hin
      exact ⟨d, hd, base32Digit_eq_some.mpr ⟨hd, heq.symm⟩⟩
    refine ⟨_, fromStr_ok.mpr ⟨(strBytes s).map fun b => (base32Digit b).getD 0, ⟨?_, ?_, ?_⟩, ?_, rfl⟩⟩
    · rw [List.length_map]
      exact hlen
    · intro d hd
      obtain ⟨b, hb, rfl⟩ := List.mem_map.mp hd
      obtain ⟨d, hlt, heq⟩ := hread b hb
      rwa [heq]
    · intro d hd
      rw [List.head?_map, Option.mem_def, Option.map_eq_some_iff] at hd
      obtain ⟨b, hb, rfl⟩ := hd
      have hin := hfirst b hb
      rw [take_workspaceIdAlphabet] at hin
      obtain ⟨d, hd, heq⟩ := mem_text_range.mp hin
      rw [base32Digit_eq_some.mpr ⟨hd.trans (by decide), heq.symm⟩]
      exact Nat.le_of_lt_succ hd
    · rw [canonical, text, List.map_map]
      refine List.map_congr_left fun b hb => ?_
      obtain ⟨d, -, heq⟩ := hread b hb
      rw [Function.comp_apply, heq]
      exact (base32Digit_eq_some.mp heq).2

/-- The text form of workspace ids: what is displayed is parsed back, exactly the strings of 26 digits
whose first is at most 7 are parsed, and they name the same id when they differ in case and aliases. -/
theorem text_codec_exact :
    (∀ id : WorkspaceId, id.display.length = 26 ∧ fromStr id.display = .ok id) ∧
    (∀ s, (∃ id, fromStr s = .ok id) ↔
      (strBytes s).length = 26 ∧ (∀ b ∈ strBytes s, canonicalByte b ∈ workspaceIdAlphabet) ∧
      ∀ b ∈ (strBytes s).head?, canonicalByte b ∈ workspaceIdAlphabet.take 8) ∧
    (∀ s id, fromStr s = .ok id → strBytes id.display = canonical s) ∧
    ∀ s s' id id', fromStr s = .ok id → fromStr s' = .ok id' → (id = id' ↔ canonical s = canonical s') := by
  refine ⟨fun id => ⟨?_, fromStr_display id⟩, fun s => fromStr_accepts,
    fun s id h => strBytes_display_of_fromStr h, ?_⟩
  · rw [display, String.length_ofList, List.length_map, List.length_range]
    rfl
  · intro s s' id id' h h'
    constructor
    · rintro rfl
      rw [← strBytes_display_of_fromStr h, ← strBytes_display_of_fromStr h']
    · intro heq
      obtain ⟨ds, hds, htext, rfl⟩ := fromStr_ok.mp h
      obtain ⟨ds', hds', htext', rfl⟩ := fromStr_ok.mp h'
      rw [text_injective hds.lt hds'.lt (htext.symm.trans (heq.trans htext'))]

end Decode

end WorkspaceId

end ZenDB
