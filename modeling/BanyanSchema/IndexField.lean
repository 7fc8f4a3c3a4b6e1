import Mathlib.Algebra.Group.Nat.Basic
import BanyanSchema.Keys

namespace BanyanSchema

/-! # Index field values

`MarshalIndexFieldValue` of etcd.go, the bytes an index keeps for a tag value:
a string as its bytes, an int64 as eight bytes, a string array joined with
`strDelimiter`, an int64 array as its elements' eight bytes in order, and
binary data as it is. Eight big-endian bytes compare as the numbers they
encode; fixed-width chunks, and strings joined by a delimiter they do not
contain, split back into their parts.
-/

namespace Modelv1

/-- Modelled from the spec: the `value` oneof of `modelv1.TagValue` (declared
outside src/), with the cases the encoder and `getTag` name. An int64 is its
64-bit two's complement word. -/
inductive TagValue where
  | null
  | str (value : List UInt8)
  | int (value : BitVec 64)
  | strArray (value : List (List UInt8))
  | intArray (value : List (BitVec 64))
  | binaryData (value : List UInt8)
  deriving DecidableEq, Repr

end Modelv1

namespace Binary

/-- `binary.BigEndian`: the `width` low bytes of `n`, most significant first. -/
def bigEndian : Nat → Nat → List UInt8
  | 0, _ => []
  | width + 1, n => UInt8.ofNat (n / 256 ^ width) :: bigEndian width (n % 256 ^ width)

@[simp] theorem length_bigEndian (width n : Nat) : (bigEndian width n).length = width := by
  induction width generalizing n with
  | zero => rfl
  | succ width ih => simp [bigEndian, ih]

end Binary

namespace Convert

/-- Modelled from the spec: `convert.Int64ToBytes` (pkg/convert, outside
src/), the fixed-width, order-preserving eight-byte encoding the spec gives an
int64: the big-endian bytes of the value with its sign bit flipped, that is of
`uint64(value) + 2^63` modulo `2^64`. -/
def int64ToBytes (value : BitVec 64) : List UInt8 :=
  Binary.bigEndian 8 ((value.toNat + 2 ^ 63) % 2 ^ 64)

end Convert

namespace Strings

def join (sep : List UInt8) : List (List UInt8) → List UInt8
  | [] => []
  | [s] => s
  | s :: t :: rest => s ++ sep ++ join sep (t :: rest)

end Strings

def strDelimiter : List UInt8 := goString "\n"

def errUnsupportedTagForIndexField : List UInt8 :=
  goString "the tag type(for example, null) can not be as the index field value"

/-- `MarshalIndexFieldValue`; `none` is a nil tag value, or one whose oneof is
unset. The int64 array is written chunk by chunk into a buffer. -/
def marshalIndexFieldValue : Option Modelv1.TagValue → Except (List UInt8) (List UInt8)
  | some (.str value) => .ok value
  | some (.int value) => .ok (Convert.int64ToBytes value)
  | some (.strArray value) => .ok (Strings.join strDelimiter value)
  | some (.intArray value) => .ok (value.foldl (fun buf i => buf ++ Convert.int64ToBytes i) [])
  | some (.binaryData value) => .ok value
  | _ => .error errUnsupportedTagForIndexField

theorem lt_iff_div_mod (x y d : Nat) :
    x < y ↔ x / d < y / d ∨ (x / d = y / d ∧ x % d < y % d) := by
  have hx := Nat.div_add_mod x d
  have hy := Nat.div_add_mod y d
  constructor
  · intro lt
    rcases Nat.lt_or_ge (x / d) (y / d) with below | above
    · exact .inl below
    · have same := le_antisymm (Nat.div_le_div_right lt.le) above
      rw [same] at hx
      exact .inr ⟨same, by omega⟩
  · rintro (below | ⟨same, lt⟩)
    · exact Nat.lt_of_div_lt_div below
    · rw [same] at hx
      omega

theorem bigEndian_lex_iff : ∀ {width x y : Nat}, x < 256 ^ width → y < 256 ^ width →
    (List.Lex (fun a b : UInt8 => a.toNat < b.toNat) (Binary.bigEndian width x)
      (Binary.bigEndian width y) ↔ x < y)
  | 0, x, y, hx, hy => iff_of_false nofun (by rw [Nat.pow_zero] at hx hy; omega)
  | width + 1, x, y, hx, hy => by
      have unit : 0 < 256 ^ width := Nat.pos_pow_of_pos _ (by decide)
      have byte : ∀ {n}, n < 256 ^ (width + 1) → (UInt8.ofNat (n / 256 ^ width)).toNat = n / 256 ^ width :=
        fun below => UInt8.toNat_ofNat_of_lt (Nat.div_lt_of_lt_mul (by rw [Nat.pow_succ] at below; exact below))
      have sameByte : UInt8.ofNat (x / 256 ^ width) = UInt8.ofNat (y / 256 ^ width) ↔
          x / 256 ^ width = y / 256 ^ width :=
        ⟨fun same => by rw [← byte hx, ← byte hy, same], fun same => by rw [same]⟩
      rw [← Etcd.bytesLt_iff_lex, lt_iff_div_mod x y (256 ^ width)]
      simp only [Binary.bigEndian, Etcd.bytesLt, Bool.or_eq_true, Bool.and_eq_true, decide_eq_true_eq,
        Etcd.bytesLt_iff_lex, bigEndian_lex_iff (Nat.mod_lt x unit) (Nat.mod_lt y unit), byte hx, byte hy,
        sameByte]

/-- Flipping the sign bit maps the signed order of int64 onto the order of
their encodings. -/
theorem int64ToBytes_lex_iff (a b : BitVec 64) :
    List.Lex (fun x y : UInt8 => x.toNat < y.toNat) (Convert.int64ToBytes a) (Convert.int64ToBytes b) ↔
      a.toInt < b.toInt := by
  have ha := a.isLt
  have hb := b.isLt
  rw [Convert.int64ToBytes, Convert.int64ToBytes, bigEndian_lex_iff (by omega) (by omega),
    BitVec.toInt_eq_toNat_cond, BitVec.toInt_eq_toNat_cond]
  split <;> split <;> omega

example : List.Lex (fun x y : UInt8 => x.toNat < y.toNat) (Convert.int64ToBytes (-5))
    (Convert.int64ToBytes 300) := by decide

theorem int64ToBytes_inj {a b : BitVec 64} (same : Convert.int64ToBytes a = Convert.int64ToBytes b) :
    a = b := by
  have below := int64ToBytes_lex_iff a b
  have above := int64ToBytes_lex_iff b a
  rw [same, int64ToBytes_lex_iff] at below above
  exact BitVec.toInt_inj.mp (by omega)

theorem marshalIndexFieldValue_int_order (a b : BitVec 64) :
    ∃ bytesA bytesB, marshalIndexFieldValue (some (.int a)) = .ok bytesA ∧
      marshalIndexFieldValue (some (.int b)) = .ok bytesB ∧ bytesA.length = 8 ∧ bytesB.length = 8 ∧
      (a.toInt < b.toInt ↔ List.Lex (fun x y : UInt8 => x.toNat < y.toNat) bytesA bytesB) :=
  ⟨_, _, rfl, rfl, Binary.length_bigEndian .., Binary.length_bigEndian .., (int64ToBytes_lex_iff a b).symm⟩

theorem foldl_write {α : Type} (f : α → List UInt8) :
    ∀ (buf : List UInt8) (xs : List α), xs.foldl (fun buf i => buf ++ f i) buf = buf ++ (xs.map f).flatten
  | buf, [] => by simp
  | buf, x :: xs => by simp [foldl_write _ (buf ++ f x) xs]

theorem flatten_int64ToBytes_inj :
    ∀ {xs ys : List (BitVec 64)}, (xs.map Convert.int64ToBytes).flatten = (ys.map Convert.int64ToBytes).flatten →
      xs = ys
  | [], [], _ => rfl
  | [], _ :: _, same | _ :: _, [], same => by
      have := congrArg List.length same
      simp only [List.map_nil, List.flatten_nil, List.length_nil, List.map_cons, List.flatten_cons,
        List.length_append, Convert.int64ToBytes, Binary.length_bigEndian] at this
      omega
  | x :: xs, y :: ys, same => by
      simp only [List.map_cons, List.flatten_cons] at same
      obtain ⟨head, tail⟩ := List.append_inj same (by simp [Convert.int64ToBytes])
      rw [int64ToBytes_inj head, flatten_int64ToBytes_inj tail]

theorem join_inj {sep : UInt8} :
    ∀ {xs ys : List (List UInt8)}, xs ≠ [] → ys ≠ [] → (∀ s ∈ xs, sep ∉ s) → (∀ s ∈ ys, sep ∉ s) →
      Strings.join [sep] xs = Strings.join [sep] ys → xs = ys
  | [], _, empty, _, _, _, _ => absurd rfl empty
  | _, [], _, empty, _, _, _ => absurd rfl empty
  | [a], [b], _, _, _, _, same => by rw [show a = b from same]
  | [a], b :: t :: rest, _, _, plain, _, same => by
      have : sep ∈ a := by
        rw [show a = b ++ [sep] ++ Strings.join [sep] (t :: rest) from same]
        simp
      exact absurd this (plain a (List.mem_singleton_self a))
  | a :: t :: rest, [b], _, _, _, plain, same => by
      have : sep ∈ b := by
        rw [show b = a ++ [sep] ++ Strings.join [sep] (t :: rest) from same.symm]
        simp
      exact absurd this (plain b (List.mem_singleton_self b))
  | a :: t :: rest, b :: u :: rest', _, _, plain, plain', same => by
      simp only [Strings.join, List.append_assoc, List.singleton_append] at same
      obtain ⟨rfl, tails⟩ := append_delimiter_inj (plain a (List.mem_cons_self _ _))
        (plain' b (List.mem_cons_self _ _)) same
      rw [join_inj (List.cons_ne_nil _ _) (List.cons_ne_nil _ _)
        (fun s mem => plain s (List.mem_cons_of_mem _ mem)) (fun s mem => plain' s (List.mem_cons_of_mem _ mem))
        tails]

theorem marshalIndexFieldValue_injective :
    (∀ a b, marshalIndexFieldValue (some (.str a)) = marshalIndexFieldValue (some (.str b)) → a = b) ∧
    (∀ a b, marshalIndexFieldValue (some (.int a)) = marshalIndexFieldValue (some (.int b)) → a = b) ∧
    (∀ a b, marshalIndexFieldValue (some (.intArray a)) = marshalIndexFieldValue (some (.intArray b)) →
      a = b) ∧
    (∀ a b, marshalIndexFieldValue (some (.binaryData a)) = marshalIndexFieldValue (some (.binaryData b)) →
      a = b) ∧
    ∀ a b, a ≠ [] → b ≠ [] → (∀ s ∈ a, (10 : UInt8) ∉ s) → (∀ s ∈ b, (10 : UInt8) ∉ s) →
      marshalIndexFieldValue (some (.strArray a)) = marshalIndexFieldValue (some (.strArray b)) → a = b := by
  refine ⟨fun a b same => Except.ok.inj same, fun a b same => int64ToBytes_inj (Except.ok.inj same),
    fun a b same => ?_, fun a b same => Except.ok.inj same,
    fun a b nonempty nonempty' plain plain' same => join_inj nonempty nonempty' plain plain' (Except.ok.inj same)⟩
  have chunks := Except.ok.inj same
  rw [foldl_write, foldl_write, List.nil_append, List.nil_append] at chunks
  exact flatten_int64ToBytes_inj chunks

/-- `strings.Join` of the empty array and of the array of one empty string are
both empty: two string arrays whose elements hold no newline share an
encoding. -/
theorem marshalIndexFieldValue_strArray_collision :
    marshalIndexFieldValue (some (.strArray [])) = marshalIndexFieldValue (some (.strArray [[]])) ∧
    (∀ s ∈ ([[]] : List (List UInt8)), (10 : UInt8) ∉ s) ∧ ([] : List (List UInt8)) ≠ [[]] :=
  ⟨rfl, by decide, by decide⟩

namespace Index

/-- `index.Field`: the key of an indexed field and one term of it. -/
structure Field where
  key : List UInt8
  term : List UInt8
  deriving DecidableEq, Repr

def Field.marshal (f : Field) : List UInt8 :=
  Strings.join [] [f.key, f.term]

@[simp] theorem Field.marshal_eq (f : Field) : f.marshal = f.key ++ f.term := by
  simp [Field.marshal, Strings.join]

end Index

end BanyanSchema
