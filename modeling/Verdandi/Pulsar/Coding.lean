import Verdandi.Pulsar.Ledger

/-! What the ledger writes can be read back: epochs as ordered BLOBs, and members as messages. -/

namespace Astra.Ledger

-- Epochs

theorem length_bigEndian (width value : Nat) : (bigEndian width value).length = width := by
  induction width with
  | zero => rfl
  | succ width ih => rw [bigEndian, List.length_cons, ih]

theorem toNat_byte (value : Nat) : (UInt8.ofNat value).toNat = value % 256 :=
  UInt8.toNat_ofNat'

/-- The bytes of a number say the number. Witness: induction over the width. -/
theorem foldl_bigEndian (width value start : Nat)
    : (bigEndian width value).foldl (fun result byte => result * 256 + byte.toNat) start
      = start * 256 ^ width + value % 256 ^ width := by
  induction width generalizing start with
  | zero => simp [bigEndian, Nat.mod_one]
  | succ width ih =>
      rw [bigEndian, List.foldl_cons, ih, toNat_byte, Nat.pow_succ, Nat.mod_mul]
      ring

variable {left right : Nat}

/-- The bytes are in the order of the numbers. -/
theorem rank_bigEndian {width : Nat} (below : left % 256 ^ width < right % 256 ^ width)
    : (bigEndian width left).rank < (bigEndian width right).rank := by
  induction width with
  | zero => simp [Nat.mod_one] at below
  | succ width ih =>
      rw [Nat.pow_succ, Nat.mod_mul, Nat.mod_mul] at below
      simp only [bigEndian, Bytes.rank, List.map_cons, toNat_byte]
      rw [List.cons_lt_cons_iff]
      have positive : 0 < 256 ^ width := Nat.pow_pos (by decide)
      have small : left % 256 ^ width < 256 ^ width := Nat.mod_lt _ positive
      have least : right % 256 ^ width < 256 ^ width := Nat.mod_lt _ positive
      rcases Nat.lt_trichotomy (left / 256 ^ width % 256) (right / 256 ^ width % 256)
        with less | equal | more
      · exact .inl less
      · rw [equal] at below ⊢
        exact .inr ⟨rfl, ih (by omega)⟩
      · have gap : 256 ^ width * (right / 256 ^ width % 256 + 1)
            ≤ 256 ^ width * (left / 256 ^ width % 256) := Nat.mul_le_mul_left _ more
        rw [Nat.mul_add, Nat.mul_one] at gap
        omega

theorem Database.length_epoch (value : Nat) : (Database.epoch value).length = 8 :=
  length_bigEndian 8 value

theorem Database.number_epoch {value : Nat} (positive : value ≠ 0) (small : value ≤ maxWord)
    : Database.number (Database.epoch value) = some value := by
  unfold Database.number
  have bound : value < 256 ^ 8 := by
    unfold maxWord at small
    omega
  rw [Database.length_epoch, Database.epoch, foldl_bigEndian, Nat.zero_mul, Nat.zero_add,
    Nat.mod_eq_of_lt bound]
  simp [positive]

theorem Database.epoch_lt (below : left < right) (small : right ≤ maxWord)
    : (Database.epoch left).rank < (Database.epoch right).rank := by
  have bound : right < 256 ^ 8 := by
    unfold maxWord at small
    omega
  apply rank_bigEndian
  rwa [Nat.mod_eq_of_lt bound, Nat.mod_eq_of_lt (below.trans bound)]

theorem Database.epoch_inj (leftSmall : left ≤ maxWord) (rightSmall : right ≤ maxWord)
    (same : Database.epoch left = Database.epoch right)
    : left = right := by
  rcases Nat.lt_trichotomy left right with less | equal | more
  · exact absurd (congrArg Bytes.rank same) (Database.epoch_lt less rightSmall).ne
  · exact equal
  · exact absurd (congrArg Bytes.rank same).symm (Database.epoch_lt more leftSmall).ne

-- Members

def Ascii (text : Bytes) : Prop := ∀ byte ∈ text, byte < 128

/-- What the ledger relies on: messages are read back as they were written, and addresses are
printed in plain characters.
-/
structure Library.Sound (library : Library) : Prop where
  coded : ∀ record, Ascii record.galaxy → Ascii record.advertise → Ascii record.group
    → record.epoch ≤ maxWord → library.parse (library.serialize record) = some record
  plain : ∀ ipv6 bytes host, library.net.ntop ipv6 bytes = some host → Ascii host

theorem ascii_of_validName {name : Bytes} (valid : Member.validName name = true)
    : Ascii name := by
  intro byte member
  simp only [Member.validName, Bool.and_eq_true, List.all_eq_true] at valid
  have each := valid.2 byte member
  simp only [Bool.or_eq_true, Bool.and_eq_true, decide_eq_true_eq, beq_iff_eq] at each
  rcases each with ((((low | high) | digit) | dot) | line) | hyphen
  · exact UInt8.lt_of_le_of_lt low.2 (by decide)
  · exact UInt8.lt_of_le_of_lt high.2 (by decide)
  · exact UInt8.lt_of_le_of_lt digit.2 (by decide)
  · rw [dot]
    decide
  · rw [line]
    decide
  · rw [hyphen]
    decide

theorem ascii_decimal (value : Nat) : Ascii (Endpoint.decimal value) := by
  intro byte member
  obtain ⟨digit, isDigit, rfl⟩ := List.mem_map.mp member
  have range := Nat.isDigit_of_mem_toDigits (by decide) (by decide) isDigit
  have bound : digit.toNat ≤ 57 := by
    simp only [Char.isDigit, Bool.and_eq_true, decide_eq_true_eq] at range
    exact range.2
  rw [UInt8.lt_iff_toNat_lt, toNat_byte]
  have plain : (128 : UInt8).toNat = 128 := rfl
  omega

variable {endpoint : Endpoint}

theorem ascii_text (plain : Ascii endpoint.host)
    : Ascii endpoint.text := by
  intro byte member
  have digits := ascii_decimal endpoint.port byte
  unfold Endpoint.text at member
  split at member
  · simp only [List.mem_append, List.mem_singleton] at member
    rcases member with (((rfl | host) | rfl) | rfl) | port
    · decide
    · exact plain byte host
    · decide
    · decide
    · exact digits port
  · simp only [List.mem_append, List.mem_singleton] at member
    rcases member with (host | rfl) | port
    · exact plain byte host
    · decide
    · exact digits port

variable {library : Library}

/-- What is parsed is printed in plain characters. -/
theorem ascii_of_parse (sound : library.Sound) {value : Bytes}
    (parsed : Endpoint.parse library.net value = .ok endpoint)
    : Ascii endpoint.host := by
  unfold Endpoint.parse at parsed
  split at parsed
  · cases parsed
  split at parsed
  · cases parsed
  dsimp only at parsed
  split at parsed
  · cases parsed
  split at parsed
  · cases parsed
  split at parsed
  · cases parsed
  rename_i printed isPrinted
  cases parsed
  exact sound.plain _ _ _ isPrinted

variable {net : Net} {member : Member}

/-- What a checked member is like. -/
theorem validate_ok (valid : member.validate net = .ok ())
    : Member.validName member.galaxy = true ∧ Member.validName member.group = true
      ∧ Member.validId member.id = true ∧ member.epoch ≠ 0
      ∧ Endpoint.parse net member.address.text = .ok member.address := by
  unfold Member.validate at valid
  split at valid
  · cases valid
  rename_i named
  simp only [not_or, Bool.not_eq_true', Bool.not_eq_false] at named
  split at valid
  · cases valid
  rename_i endpoint parsed
  split at valid
  · cases valid
  rename_i same
  rw [not_not] at same
  exact ⟨named.1, named.2.1, named.2.2.1, named.2.2.2, same ▸ parsed⟩

theorem decodeRole_encodeRole (role : Member.Role) : decodeRole (encodeRole role) = .ok role := by
  cases role <;> rfl

/-- A checked member is read back from its message. -/
theorem decodeMember_encode (valid : member.validate net = .ok ())
    : decodeMember net { encode member with principal := member.principal.bytes } = .ok member := by
  obtain ⟨_, _, valid_id, _, parsed⟩ := validate_ok valid
  obtain ⟨galaxy, id, ⟨bytes, length⟩, address, epoch, role, group⟩ := member
  simp only at parsed valid_id
  unfold decodeMember
  simp [encode, length, parsed, decodeRole_encodeRole, valid_id, valid]

theorem parse_serialize (sound : library.Sound) (valid : member.validate library.net = .ok ())
    (small : member.epoch ≤ maxWord)
    : library.parse (library.serialize (encode member)) = some (encode member) := by
  obtain ⟨galaxy, group, _, _, parsed⟩ := validate_ok valid
  exact sound.coded _ (ascii_of_validName galaxy) (ascii_text (ascii_of_parse sound parsed))
    (ascii_of_validName group) small

end Astra.Ledger
