import Mathlib.Data.List.AList
import Mathlib.Data.List.Lex
import BanyanSchema.Api

namespace BanyanSchema.Etcd

/-! # The key-value substrate

The embedded etcd server as the registry sees it through `clientv3.KV`: a map
from byte keys to values with their create and mod revisions, and one store
revision that every write transaction advances. A call made with a context
whose `Err()` is set fails before it reaches the server and changes nothing.
-/

variable {V : Type}

/-- What the server keeps for a key: `mvccpb.KeyValue` apart from the key. -/
structure KeyValue (V : Type) where
  value : V
  createRevision : Int
  modRevision : Int
  deriving DecidableEq, Repr

/-- The server's keyspace. Every live key's mod revision is positive and at
most the store revision, so the revision a write assigns is newer than every
revision a reader can have seen. -/
structure Store (V : Type) where
  kvs : AList (fun _ : List UInt8 => KeyValue V)
  revision : Int
  revision_nonneg : 0 ≤ revision
  revisions_bounded :
    ∀ {key kv}, kvs.lookup key = some kv → 0 < kv.modRevision ∧ kv.modRevision ≤ revision

def Store.empty : Store V where
  kvs := ∅
  revision := 1
  revision_nonneg := by decide
  revisions_bounded := by simp [AList.lookup_empty]

def keepKeys {β : List UInt8 → Type} (l : AList β) (keep : List UInt8 → Bool) : AList β :=
  ⟨l.entries.filter (fun entry => keep entry.1), l.nodupKeys.sublist (List.filter_sublist _)⟩

theorem lookup_keepKeys {β : List UInt8 → Type} (l : AList β) (keep : List UInt8 → Bool)
    (key : List UInt8) : (keepKeys l keep).lookup key = if keep key then l.lookup key else none := by
  apply Option.ext
  intro b
  rw [AList.mem_lookup_iff]
  split
  · rw [AList.mem_lookup_iff]
    simp_all [keepKeys]
  · simp_all [keepKeys]

/-- `bytes.Compare(a, b) < 0`, etcd's order on keys: bytewise, a proper prefix
first. -/
def bytesLt : List UInt8 → List UInt8 → Bool
  | [], [] => false
  | [], _ :: _ => true
  | _ :: _, [] => false
  | x :: xs, y :: ys => decide (x.toNat < y.toNat) || (decide (x = y) && bytesLt xs ys)

def inRange (key rangeEnd k : List UInt8) : Bool :=
  !bytesLt k key && bytesLt k rangeEnd

theorem bytesLt_nil_right (k : List UInt8) : bytesLt k [] = false := by
  cases k <;> rfl

/-- etcd's order is the lexicographic order on byte values. -/
theorem bytesLt_iff_lex : ∀ a b : List UInt8,
    bytesLt a b = true ↔ List.Lex (fun x y : UInt8 => x.toNat < y.toNat) a b
  | [], [] => iff_of_false Bool.false_ne_true nofun
  | [], _ :: _ => iff_of_true rfl .nil
  | _ :: _, [] => iff_of_false Bool.false_ne_true (List.Lex.not_nil_right _ _)
  | x :: xs, y :: ys => by
      simp only [bytesLt, Bool.or_eq_true, Bool.and_eq_true, decide_eq_true_eq, bytesLt_iff_lex xs ys]
      constructor
      · rintro (below | ⟨rfl, rest⟩)
        · exact .rel below
        · exact .cons rest
      · intro lex
        cases lex with
        | cons rest => exact .inr ⟨rfl, rest⟩
        | rel below => exact .inl below

theorem toNat_succ {b : UInt8} (last : b ≠ 255) : (b + 1).toNat = b.toNat + 1 := by
  have : b.toNat ≠ 255 := fun h => last (UInt8.toNat.inj h)
  have : b.toNat < 256 := b.toNat_lt_size
  show (b.toNat + 1) % 256 = _
  omega

/-- The keys between `p ++ [b]` and `p ++ [b + 1]` are those that extend
`p ++ [b]`, as long as `b + 1` does not wrap. -/
theorem inRange_succ_iff_prefix {b : UInt8} (last : b ≠ 255) :
    ∀ p k : List UInt8, inRange (p ++ [b]) (p ++ [b + 1]) k = true ↔ p ++ [b] <+: k
  | [], [] => by simp [inRange, bytesLt]
  | [], x :: ks => by
      simp only [inRange, List.nil_append, bytesLt, bytesLt_nil_right, Bool.and_false, Bool.or_false,
        Bool.and_eq_true, Bool.not_eq_true', decide_eq_false_iff_not, decide_eq_true_eq,
        List.cons_prefix_cons, List.nil_prefix, and_true, toNat_succ last]
      constructor
      · rintro ⟨notBelow, above⟩
        exact UInt8.toNat.inj (by omega)
      · rintro rfl
        omega
  | a :: p, [] => by simp [inRange, bytesLt]
  | a :: p, x :: ks => by
      have rest := inRange_succ_iff_prefix last p ks
      simp only [inRange, Bool.and_eq_true, Bool.not_eq_true'] at rest ⊢
      simp only [List.cons_append, bytesLt, List.cons_prefix_cons, ← rest]
      by_cases same : x = a
      · subst same
        simp
      · simp [same, Ne.symm same]

namespace Store

def lookup (s : Store V) (key : List UInt8) : Option (KeyValue V) :=
  s.kvs.lookup key

/-- The mod revision etcd compares for a key: 0 when the key is absent. -/
def modRevisionOf (s : Store V) (key : List UInt8) : Int :=
  ((s.lookup key).map (·.modRevision)).getD 0

def range (s : Store V) (key rangeEnd : List UInt8) : List (Σ _ : List UInt8, KeyValue V) :=
  s.kvs.entries.filter (fun entry => inRange key rangeEnd entry.1)

theorem put_bounded (s : Store V) (key : List UInt8) (kv : KeyValue V)
    (fresh : kv.modRevision = s.revision + 1) :
    ∀ {key' kv'}, (s.kvs.insert key kv).lookup key' = some kv' →
      0 < kv'.modRevision ∧ kv'.modRevision ≤ s.revision + 1 := by
  intro key' kv' found
  by_cases same : key' = key
  · subst same
    rw [AList.lookup_insert, Option.some_inj] at found
    have := s.revision_nonneg
    subst found
    omega
  · rw [AList.lookup_insert_ne same] at found
    have := s.revisions_bounded found
    omega

/-- A put: the value at the next revision, keeping the create revision of a
live key. -/
def put (s : Store V) (key : List UInt8) (value : V) : Store V where
  kvs := s.kvs.insert key
    { value
      createRevision := ((s.lookup key).map (·.createRevision)).getD (s.revision + 1)
      modRevision := s.revision + 1 }
  revision := s.revision + 1
  revision_nonneg := by have := s.revision_nonneg; omega
  revisions_bounded := s.put_bounded key _ rfl

theorem keep_bounded (s : Store V) (keep : List UInt8 → Bool) :
    ∀ {key kv}, (keepKeys s.kvs keep).lookup key = some kv →
      0 < kv.modRevision ∧ kv.modRevision ≤ s.revision + 1 := by
  intro key kv found
  rw [lookup_keepKeys] at found
  split at found
  · have := s.revisions_bounded found
    omega
  · contradiction

/-- Removes the keys in `[key, rangeEnd)`; the revision advances only when a
key is removed. A point delete is the range of one key. -/
def eraseRange (s : Store V) (key rangeEnd : List UInt8) : Store V :=
  if (s.range key rangeEnd).isEmpty then s
  else
    { kvs := keepKeys s.kvs (fun k => !inRange key rangeEnd k)
      revision := s.revision + 1
      revision_nonneg := by have := s.revision_nonneg; omega
      revisions_bounded := s.keep_bounded _ }

/-- Removes one key; the revision advances only when the key was live. -/
def erase (s : Store V) (key : List UInt8) : Store V :=
  if key ∈ s.kvs then
    { kvs := keepKeys s.kvs (fun k => k != key)
      revision := s.revision + 1
      revision_nonneg := by have := s.revision_nonneg; omega
      revisions_bounded := s.keep_bounded _ }
  else s

@[simp] theorem lookup_empty (key : List UInt8) : (Store.empty : Store V).lookup key = none :=
  AList.lookup_empty key

@[simp] theorem put_revision (s : Store V) (key : List UInt8) (value : V) :
    (s.put key value).revision = s.revision + 1 := rfl

@[simp] theorem lookup_put_self (s : Store V) (key : List UInt8) (value : V) :
    (s.put key value).lookup key = some
      { value
        createRevision := ((s.lookup key).map (·.createRevision)).getD (s.revision + 1)
        modRevision := s.revision + 1 } :=
  AList.lookup_insert _

theorem lookup_put_ne (s : Store V) {key key' : List UInt8} (value : V) (other : key' ≠ key) :
    (s.put key value).lookup key' = s.lookup key' :=
  AList.lookup_insert_ne other

theorem lookup_erase (s : Store V) (key key' : List UInt8) :
    (s.erase key).lookup key' = if key' = key then none else s.lookup key' := by
  unfold erase
  split
  · simp only [lookup, lookup_keepKeys, bne_iff_ne, ne_eq, ite_not]
  · split
    · subst key'
      exact AList.lookup_eq_none.mpr ‹_›
    · rfl

theorem lookup_eraseRange (s : Store V) (key rangeEnd k : List UInt8) :
    (s.eraseRange key rangeEnd).lookup k = if inRange key rangeEnd k then none else s.lookup k := by
  unfold eraseRange
  split
  · split
    · rename_i empty within
      cases found : s.lookup k with
      | none => rfl
      | some kv =>
          have member : (⟨k, kv⟩ : Σ _ : List UInt8, KeyValue V) ∈ s.range key rangeEnd :=
            List.mem_filter.mpr ⟨AList.mem_lookup_iff.mp found, within⟩
          simp [List.isEmpty_iff.mp empty] at member
    · rfl
  · simp only [lookup, lookup_keepKeys, Bool.not_eq_true', Bool.if_false_right]
    split <;> simp_all

theorem erase_of_absent {s : Store V} {key : List UInt8} (absent : s.lookup key = none) :
    s.erase key = s :=
  if_neg (AList.lookup_eq_none.mp absent)

theorem erase_revision (s : Store V) (key : List UInt8) :
    (s.erase key).revision = if (s.lookup key).isSome then s.revision + 1 else s.revision := by
  unfold erase
  by_cases live : key ∈ s.kvs
  · rw [if_pos live, if_pos (show (s.lookup key).isSome from AList.lookup_isSome.mpr live)]
  · rw [if_neg live, if_neg (show ¬ (s.lookup key).isSome from mt AList.lookup_isSome.mp live)]

theorem eraseRange_revision (s : Store V) (key rangeEnd : List UInt8) :
    (s.eraseRange key rangeEnd).revision =
      if (s.range key rangeEnd).isEmpty then s.revision else s.revision + 1 := by
  unfold eraseRange
  split <;> rfl

theorem revision_le_erase (s : Store V) (key : List UInt8) : s.revision ≤ (s.erase key).revision := by
  unfold erase
  split <;> (try dsimp only) <;> omega

theorem revision_le_eraseRange (s : Store V) (key rangeEnd : List UInt8) :
    s.revision ≤ (s.eraseRange key rangeEnd).revision := by
  unfold eraseRange
  split <;> (try dsimp only) <;> omega

theorem modRevisionOf_le_revision (s : Store V) (key : List UInt8) :
    s.modRevisionOf key ≤ s.revision := by
  unfold modRevisionOf
  cases found : s.lookup key with
  | none => exact s.revision_nonneg
  | some kv => exact (s.revisions_bounded found).2

theorem mem_range (s : Store V) (key rangeEnd : List UInt8) (entry : Σ _ : List UInt8, KeyValue V) :
    entry ∈ s.range key rangeEnd ↔
      inRange key rangeEnd entry.1 = true ∧ s.lookup entry.1 = some entry.2 := by
  rw [range, List.mem_filter, lookup, ← Option.mem_def, AList.mem_lookup_iff, and_comm]

theorem range_nodupKeys (s : Store V) (key rangeEnd : List UInt8) :
    (s.range key rangeEnd).NodupKeys :=
  s.kvs.nodupKeys.sublist (List.filter_sublist _)

end Store

/-- The store changes a substrate call can make: none, a put, a point delete or
a range delete. -/
inductive Transition : Store V → Store V → Prop where
  | stay (s : Store V) : Transition s s
  | put (s : Store V) (key : List UInt8) (value : V) : Transition s (s.put key value)
  | erase (s : Store V) (key : List UInt8) : Transition s (s.erase key)
  | eraseRange (s : Store V) (key rangeEnd : List UInt8) : Transition s (s.eraseRange key rangeEnd)

/-- Every record `key` holds is newer than revision `r`, and so is the store:
no later write can give the key revision `r` again. -/
def Store.NewerThan (s : Store V) (key : List UInt8) (r : Int) : Prop :=
  r ≤ s.revision ∧ ∀ kv, s.lookup key = some kv → r < kv.modRevision

theorem Store.put_newerThan (s : Store V) (key : List UInt8) (value : V) {r : Int}
    (seen : r ≤ s.revision) : (s.put key value).NewerThan key r := by
  refine ⟨by rw [Store.put_revision]; omega, fun kv found => ?_⟩
  rw [Store.lookup_put_self, Option.some_inj] at found
  rw [← found]
  show r < s.revision + 1
  omega

namespace Transition

variable {s s' : Store V} {key : List UInt8} {r : Int}

theorem revision_le (step : Transition s s') : s.revision ≤ s'.revision := by
  cases step with
  | stay => exact le_refl _
  | put => show s.revision ≤ s.revision + 1; omega
  | erase => exact s.revision_le_erase _
  | eraseRange => exact s.revision_le_eraseRange _ _

/-- A write that changes a key's record leaves it newer than any revision a
reader saw before. -/
theorem newerThan_of_changed (step : Transition s s') (seen : r ≤ s.revision)
    (changed : s'.lookup key ≠ s.lookup key) : s'.NewerThan key r := by
  refine ⟨le_trans seen step.revision_le, fun kv found => ?_⟩
  cases step with
  | stay => exact absurd rfl changed
  | put k value =>
      by_cases same : key = k
      · subst same
        exact (s.put_newerThan key value seen).2 kv found
      · rw [Store.lookup_put_ne _ _ same] at changed
        exact absurd rfl changed
  | erase k =>
      rw [Store.lookup_erase] at changed found
      split at found
      · contradiction
      · simp_all
  | eraseRange k rangeEnd =>
      rw [Store.lookup_eraseRange] at changed found
      split at found
      · contradiction
      · simp_all

theorem newerThan (step : Transition s s') (newer : s.NewerThan key r) : s'.NewerThan key r := by
  by_cases same : s'.lookup key = s.lookup key
  · exact ⟨le_trans newer.1 step.revision_le, fun kv found => newer.2 kv (same ▸ found)⟩
  · exact step.newerThan_of_changed newer.1 same

end Transition

theorem Store.NewerThan.modRevisionOf_ne {s : Store V} {key : List UInt8} {r : Int}
    (newer : s.NewerThan key r) (live : 0 < r) : s.modRevisionOf key ≠ r := by
  unfold Store.modRevisionOf
  cases found : s.lookup key with
  | none => simp only [Option.map_none', Option.getD_none]; omega
  | some kv =>
      have := newer.2 kv found
      simp only [Option.map_some', Option.getD_some]
      omega

structure RangeResponse (V : Type) where
  kvs : List (Σ _ : List UInt8, KeyValue V)

def RangeResponse.count (resp : RangeResponse V) : Nat := resp.kvs.length

structure DeleteResponse (V : Type) where
  deleted : Nat
  prevKvs : List (Σ _ : List UInt8, KeyValue V)

/-- A call made with `ctx`: its `Err()` if set, the call's result otherwise. -/
def guarded {α : Type} (ctx : Context) (result : α) : Except Error α :=
  match ctx.err with
  | some err => .error err
  | none => .ok result

def get (ctx : Context) (key : List UInt8) (s : Store V) : Except Error (RangeResponse V) :=
  guarded ctx ⟨((s.lookup key).map fun kv => ⟨key, kv⟩).toList⟩

/-- `kv.Get(ctx, key, WithFromKey(), WithRange(rangeEnd))`. -/
def getRange (ctx : Context) (key rangeEnd : List UInt8) (s : Store V) :
    Except Error (RangeResponse V) :=
  guarded ctx ⟨s.range key rangeEnd⟩

def put (ctx : Context) (key : List UInt8) (value : V) (s : Store V) : Except Error (Store V) :=
  guarded ctx (s.put key value)

/-- `kv.Txn(ctx).If(Compare(ModRevision(key), "=", modRevision)).Then(OpPut(key, value)).Commit()`:
`Succeeded` and the store after. -/
def txn (ctx : Context) (key : List UInt8) (modRevision : Int) (value : V) (s : Store V) :
    Except Error (Bool × Store V) :=
  guarded ctx (if s.modRevisionOf key = modRevision then (true, s.put key value) else (false, s))

def delete (ctx : Context) (key : List UInt8) (s : Store V) :
    Except Error (DeleteResponse V × Store V) :=
  guarded ctx (⟨(s.lookup key).toList.length, ((s.lookup key).map fun kv => ⟨key, kv⟩).toList⟩,
    s.erase key)

def deleteRange (ctx : Context) (key rangeEnd : List UInt8) (s : Store V) :
    Except Error (DeleteResponse V × Store V) :=
  guarded ctx (⟨(s.range key rangeEnd).length, s.range key rangeEnd⟩, s.eraseRange key rangeEnd)

end BanyanSchema.Etcd
