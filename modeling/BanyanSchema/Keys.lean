import BanyanSchema.Etcd

namespace BanyanSchema

/-! # Key codec

The key layout of etcd.go: `/groups/{group}/__meta_group__` for a group record
and `/groups/{group}{entity prefix}{name}` for the other kinds, and
`incrementLastByte`, the exclusive end of a prefix scan. A group's subtree, the
range `DeleteGroup` removes, is every key beginning with `/groups/{group}/`;
for a group without `/`, no key of another kind is a group record, and only
the group's own subtree holds its record.
-/

def groupsKeyPrefix : List UInt8 := goString "/groups/"
def groupMetadataKey : List UInt8 := goString "/__meta_group__"
def streamKeyPrefix : List UInt8 := goString "/streams/"
def indexRuleBindingKeyPrefix : List UInt8 := goString "/index-rule-bindings/"
def indexRuleKeyPrefix : List UInt8 := goString "/index-rules/"
def measureKeyPrefix : List UInt8 := goString "/measures/"

def formatKey (entityPrefix : List UInt8) (metadata : Option Commonv1.Metadata) : List UInt8 :=
  groupsKeyPrefix ++ Commonv1.getGroup metadata ++ entityPrefix ++ Commonv1.getName metadata

def formatIndexRuleKey (metadata : Option Commonv1.Metadata) : List UInt8 :=
  formatKey indexRuleKeyPrefix metadata

def formatIndexRuleBindingKey (metadata : Option Commonv1.Metadata) : List UInt8 :=
  formatKey indexRuleBindingKeyPrefix metadata

def formatStreamKey (metadata : Option Commonv1.Metadata) : List UInt8 :=
  formatKey streamKeyPrefix metadata

def formatMeasureKey (metadata : Option Commonv1.Metadata) : List UInt8 :=
  formatKey measureKeyPrefix metadata

def formatGroupKey (group : List UInt8) : List UInt8 :=
  groupsKeyPrefix ++ group ++ groupMetadataKey

def listPrefixesForEntity (group entityPrefix : List UInt8) : List UInt8 :=
  groupsKeyPrefix ++ group ++ entityPrefix

/-- `bb[len(bb)-1]++`: the last byte wraps at `0xFF`. Every caller passes a
key ending in `/`; the empty key, on which Go panics, is returned as is. -/
def incrementLastByte (key : List UInt8) : List UInt8 :=
  key.dropLast ++ (key.getLast?.map (· + 1)).toList

theorem incrementLastByte_concat (p : List UInt8) (b : UInt8) :
    incrementLastByte (p ++ [b]) = p ++ [b + 1] := by
  simp [incrementLastByte]

/-- The range `[p, incrementLastByte p)` that the list and range-delete calls
scan holds exactly the keys extending `p`, for every `p` whose last byte is not
`0xFF`. -/
theorem inRange_incrementLastByte {p : List UInt8} {b : UInt8} (last : b ≠ 255) (k : List UInt8) :
    Etcd.inRange (p ++ [b]) (incrementLastByte (p ++ [b])) k = true ↔ p ++ [b] <+: k := by
  rw [incrementLastByte_concat]
  exact Etcd.inRange_succ_iff_prefix last p k

/-- The half-open range `[p, incrementLastByte p)` in the bytewise
lexicographic order is exactly the keys extending `p`, for every non-empty `p`
whose last byte is not `0xFF`. -/
theorem incrementLastByte_bounds_prefix {p : List UInt8} (nonempty : p ≠ [])
    (last : p.getLast nonempty ≠ 255) (k : List UInt8) :
    (¬ List.Lex (fun x y : UInt8 => x.toNat < y.toNat) k p ∧
      List.Lex (fun x y : UInt8 => x.toNat < y.toNat) k (incrementLastByte p)) ↔ p <+: k := by
  obtain ⟨q, b, rfl⟩ : ∃ q b, p = q ++ [b] :=
    ⟨p.dropLast, p.getLast nonempty, (List.dropLast_append_getLast nonempty).symm⟩
  rw [List.getLast_append_singleton] at last
  rw [← inRange_incrementLastByte last k, Etcd.inRange, ← Etcd.bytesLt_iff_lex,
    ← Etcd.bytesLt_iff_lex, Bool.and_eq_true, Bool.not_eq_true', Bool.not_eq_true]

theorem incrementLastByte_bounds_groupsKeyPrefix :
    ∃ nonempty : groupsKeyPrefix ≠ [], groupsKeyPrefix.getLast nonempty ≠ 255 ∧
      ((¬ List.Lex (fun x y : UInt8 => x.toNat < y.toNat) (formatGroupKey (goString "default"))
          groupsKeyPrefix ∧
        List.Lex (fun x y : UInt8 => x.toNat < y.toNat) (formatGroupKey (goString "default"))
          (incrementLastByte groupsKeyPrefix)) ↔ groupsKeyPrefix <+: formatGroupKey (goString "default")) :=
  ⟨by decide, by decide, incrementLastByte_bounds_prefix (by decide) (by decide) _⟩

/-- The `commonv1.Metadata` the key functions read for a group and name. -/
def identity (group name : List UInt8) : Option Commonv1.Metadata :=
  some { group, name, id := 0, createRevision := 0, modRevision := 0 }

/-- The key of the entity `(group, kind, name)` as the getters build it:
`formatGroupKey` of the group for a group record, `formatKey` with the kind's
prefix for the other kinds. -/
def entityKey (group : List UInt8) (kind : Kind) (name : List UInt8) : List UInt8 :=
  match kind with
  | .group => formatGroupKey group
  | .stream => formatStreamKey (identity group name)
  | .measure => formatMeasureKey (identity group name)
  | .indexRuleBinding => formatIndexRuleBindingKey (identity group name)
  | .indexRule => formatIndexRuleKey (identity group name)

/-- What `formatKey` puts between the group and the name for each kind, and
what follows the group in a group record. -/
def Kind.entityPrefix : Kind → List UInt8
  | .group => groupMetadataKey
  | .stream => streamKeyPrefix
  | .measure => measureKeyPrefix
  | .indexRuleBinding => indexRuleBindingKeyPrefix
  | .indexRule => indexRuleKeyPrefix

def Kind.keyTail : Kind → List UInt8 → List UInt8
  | .group, _ => goString "__meta_group__"
  | .stream, name => goString "streams/" ++ name
  | .measure, name => goString "measures/" ++ name
  | .indexRuleBinding, name => goString "index-rule-bindings/" ++ name
  | .indexRule, name => goString "index-rules/" ++ name

theorem entityKey_eq (group : List UInt8) (kind : Kind) (name : List UInt8) :
    entityKey group kind name = groupsKeyPrefix ++ group ++ 47 :: kind.keyTail name := by
  cases kind <;> simp only [entityKey, formatGroupKey, formatStreamKey, formatMeasureKey,
    formatIndexRuleBindingKey, formatIndexRuleKey, formatKey, identity, Commonv1.getGroup,
    Commonv1.getName, List.append_assoc] <;> rfl

theorem entityKey_of_ne_group {kind : Kind} (entity : kind ≠ .group) (group name : List UInt8) :
    entityKey group kind name = listPrefixesForEntity group kind.entityPrefix ++ name := by
  cases kind
  case group => exact absurd rfl entity
  all_goals rfl

theorem entityPrefix_slash {kind : Kind} (entity : kind ≠ .group) :
    ∃ word, kind.entityPrefix = word ++ [47] := by
  cases kind
  case group => exact absurd rfl entity
  case stream => exact ⟨goString "/streams", by decide⟩
  case measure => exact ⟨goString "/measures", by decide⟩
  case indexRuleBinding => exact ⟨goString "/index-rule-bindings", by decide⟩
  case indexRule => exact ⟨goString "/index-rules", by decide⟩

/-- Cutting at the first delimiter: if `h` has no delimiter, a split of
`h ++ sep :: t` at some delimiter is the split after `h`, or one further on,
inside `t`. -/
theorem delimiter_split {sep : UInt8} {a b h t : List UInt8} (plain : sep ∉ h)
    (same : a ++ sep :: b = h ++ sep :: t) :
    (a = h ∧ b = t) ∨ ∃ rest, a = h ++ sep :: rest ∧ t = rest ++ sep :: b := by
  induction h generalizing a with
  | nil =>
      cases a with
      | nil => exact .inl ⟨rfl, (List.cons.inj same).2⟩
      | cons x rest =>
          obtain ⟨rfl, rfl⟩ := List.cons.inj same
          exact .inr ⟨rest, rfl, rfl⟩
  | cons y h ih =>
      cases a with
      | nil =>
          obtain ⟨rfl, -⟩ := List.cons.inj same
          exact absurd (List.mem_cons_self _ _) plain
      | cons x rest =>
          simp only [List.cons_append, List.cons.injEq] at same
          obtain ⟨rfl, same⟩ := same
          rcases ih (fun h' => plain (List.mem_cons_of_mem _ h')) same with ⟨rfl, rfl⟩ | ⟨r, rfl, rfl⟩
          · exact .inl ⟨rfl, rfl⟩
          · exact .inr ⟨r, rfl, rfl⟩

/-- A string without the delimiter, followed by the delimiter, is determined by
the whole. -/
theorem append_delimiter_inj {sep : UInt8} {a a' b b' : List UInt8} (plain : sep ∉ a)
    (plain' : sep ∉ a') (same : a ++ sep :: b = a' ++ sep :: b') : a = a' ∧ b = b' := by
  rcases delimiter_split plain' same with split | ⟨rest, rfl, -⟩
  · exact split
  · exact absurd (List.mem_append_right _ (List.mem_cons_self _ _)) plain

theorem append_ne_of_take_ne {p q n n' : List UInt8} (m : Nat) (short : m ≤ p.length)
    (short' : m ≤ q.length) (differ : p.take m ≠ q.take m) : p ++ n ≠ q ++ n' := fun same =>
  differ (by rw [← List.take_append_of_le_length short, same, List.take_append_of_le_length short'])

theorem Kind.keyTail_inj {kind kind' : Kind} {name name' : List UInt8}
    (same : kind.keyTail name = kind'.keyTail name') :
    kind = kind' ∧ (kind ≠ .group → name = name') := by
  cases kind <;> cases kind' <;> simp only [Kind.keyTail] at same <;>
    first
    | exact ⟨rfl, fun _ => List.append_cancel_left same⟩
    | exact ⟨rfl, fun h => absurd rfl h⟩
    | exact absurd same (append_ne_of_take_ne 1 (by decide) (by decide) (by decide))
    | exact absurd same (append_ne_of_take_ne 11 (by decide) (by decide) (by decide))

theorem entityKey_inj {group group' name name' : List UInt8} {kind kind' : Kind}
    (plain : (47 : UInt8) ∉ group) (plain' : (47 : UInt8) ∉ group')
    (same : entityKey group kind name = entityKey group' kind' name') :
    kind = kind' ∧ group = group' ∧ (kind ≠ .group → name = name') := by
  rw [entityKey_eq, entityKey_eq, List.append_assoc, List.append_assoc] at same
  obtain ⟨rfl, tails⟩ := append_delimiter_inj plain plain' (List.append_cancel_left same)
  obtain ⟨rfl, names⟩ := Kind.keyTail_inj tails
  exact ⟨rfl, rfl, names⟩

/-- Identities whose group has no `/` have distinct keys: the key gives back
the kind, the group and, except for a group record, the name. -/
theorem entityKey_injective {group group' name name' : List UInt8} {kind kind' : Kind}
    (plain : (47 : UInt8) ∉ group) (plain' : (47 : UInt8) ∉ group')
    (same : entityKey group kind name = entityKey group' kind' name') :
    kind = kind' ∧ group = group' ∧ (kind ≠ .group → name = name') :=
  entityKey_inj plain plain' same

theorem entityKey_injective_default :
    (47 : UInt8) ∉ goString "default" ∧
      entityKey (goString "default") .stream (goString "sw") =
        entityKey (goString "default") .stream (goString "sw") ∧
      (Kind.stream = .stream ∧ goString "default" = goString "default" ∧
        (Kind.stream ≠ .group → goString "sw" = goString "sw")) :=
  ⟨by decide, rfl, entityKey_injective (by decide) (by decide) rfl⟩

/-- No function checks names for `/`: two streams, and a group and a stream,
share a key. -/
theorem entityKey_collisions :
    entityKey (goString "a") .stream (goString "b/streams/c") =
      entityKey (goString "a/streams/b") .stream (goString "c") ∧
    entityKey (goString "a/streams/b") .group [] =
      entityKey (goString "a") .stream (goString "b/__meta_group__") ∧
    goString "a" ≠ goString "a/streams/b" := by
  decide

def subtreePrefix (group : List UInt8) : List UInt8 :=
  groupsKeyPrefix ++ group ++ [47]

theorem subtreePrefix_prefix_entityKey (group : List UInt8) (kind : Kind) (name : List UInt8) :
    subtreePrefix group <+: entityKey group kind name :=
  ⟨kind.keyTail name, by simp [subtreePrefix, entityKey_eq]⟩

theorem entityKey_eq_formatGroupKey {group h name : List UInt8} {kind : Kind}
    (plain : (47 : UInt8) ∉ h) (same : entityKey group kind name = formatGroupKey h) :
    kind = .group ∧ group = h := by
  have : entityKey group kind name = entityKey h .group [] := same
  rw [entityKey_eq, entityKey_eq, List.append_assoc, List.append_assoc] at this
  rcases delimiter_split plain (List.append_cancel_left this) with ⟨rfl, tails⟩ | ⟨rest, -, meta⟩
  · exact ⟨(Kind.keyTail_inj tails).1, rfl⟩
  · exact absurd (meta ▸ List.mem_append_right _ (List.mem_cons_self _ _)) (by decide)

theorem eq_of_subtreePrefix_prefix_formatGroupKey {x h : List UInt8} (plain : (47 : UInt8) ∉ h)
    (within : subtreePrefix x <+: formatGroupKey h) : x = h := by
  obtain ⟨rest, same⟩ := within
  have : groupsKeyPrefix ++ (x ++ 47 :: rest) = groupsKeyPrefix ++ (h ++ 47 :: Kind.group.keyTail []) := by
    rw [show formatGroupKey h = entityKey h .group [] from rfl, entityKey_eq] at same
    simpa [subtreePrefix] using same
  rcases delimiter_split plain (List.append_cancel_left this) with ⟨rfl, -⟩ | ⟨r, -, meta⟩
  · rfl
  · exact absurd (meta ▸ List.mem_append_right _ (List.mem_cons_self _ _)) (by decide)

theorem suffix_slash {t a n : List UInt8} (plain : (47 : UInt8) ∉ t)
    (ends : 47 :: t <:+ a ++ 47 :: n) : 47 :: t <:+ 47 :: n := by
  rcases List.suffix_or_suffix_of_suffix ends (List.suffix_append a _) with done | ⟨pre, same⟩
  · exact done
  · cases pre with
    | nil =>
        rw [List.nil_append] at same
        simp only [same, List.suffix_refl]
    | cons x rest =>
        obtain ⟨-, rfl⟩ := List.cons.inj same
        exact absurd (List.mem_append_right _ (List.mem_cons_self _ _)) plain

/-- The key of an entity ends in `/__meta_group__` only if `/` and its name do. -/
theorem groupMetadataKey_suffix_of_entity {group name : List UInt8} {kind : Kind}
    (entity : kind ≠ .group) (ends : groupMetadataKey <:+ entityKey group kind name) :
    groupMetadataKey <:+ 47 :: name := by
  obtain ⟨word, slash⟩ := entityPrefix_slash entity
  rw [entityKey_of_ne_group entity, listPrefixesForEntity, slash] at ends
  have meta : groupMetadataKey = 47 :: goString "__meta_group__" := by decide
  rw [meta] at ends ⊢
  have ends : 47 :: goString "__meta_group__" <:+ (groupsKeyPrefix ++ group ++ word) ++ 47 :: name := by
    simpa only [List.append_assoc, List.singleton_append] using ends
  exact suffix_slash (by decide) ends

theorem formatGroupKey_inj {group group' : List UInt8}
    (same : formatGroupKey group = formatGroupKey group') : group = group' := by
  simpa [formatGroupKey] using same

end BanyanSchema
