import BanyanSchema.Session

namespace BanyanSchema

open Etcd

/-! # Group subtrees

`DeleteGroup` removes the key range `/groups/{name}/`, taking the name from the
group it reads, and nothing in the registry ties an entity to its group: no
`Update…` reads the group record. On stores whose messages are filed under
groups without `/`, the subtree of a group is exactly its own keys, so the
range delete is the cascade the registry intends. Which group an entity
belongs to, and with which catalog, is left to the client: under the
client-side checks `Op.Guarded`, every store a run reaches keeps each entity in
a stored group of a fitting catalog, since entity writes never touch a group
record, a group is rewritten only with its catalog, and every delete removes
entities with, or without, their group, never a group without its entities.
-/

variable {V : Type} {c : Codec V}

/-- In a store of messages filed under groups without `/`, the group `GetGroup`
reads for a name without `/` carries that name, so `DeleteGroup` removes that
group's own subtree. -/
theorem Stored.groupKeyPrefix_of_getGroup {kv : Store V} (stored : Stored c Message.Plain kv)
    {ctx : Context} {group : List UInt8} {g : Message} (plain : (47 : UInt8) ∉ group)
    (read : getGroup c ctx group kv = .ok g) : groupKeyPrefix g = subtreePrefix group := by
  obtain ⟨entry, found, decoded⟩ := get_ok read
  obtain ⟨message, marshalled, isGroup, owner, -⟩ :=
    stored.at_entityKey plain (show kv.lookup (entityKey group .group []) = some entry from found)
  rw [decodeEntry_of_unmarshal (isGroup ▸ c.unmarshal_marshal marshalled)] at decoded
  obtain ⟨metadata, given, rfl⟩ := Message.assignRevisions_ok decoded
  rw [envelope_owner_of_group isGroup, given] at owner
  rw [groupKeyPrefix_eq, Message.getMetadata_setMetadata, ← owner]
  rfl

/-- The group `default`, of catalog stream. -/
def defaultGroupMessage : Message := .group ⟨some ⟨[], goString "default", 0, 0, 0⟩, .stream, none, none⟩

def defaultGroupStore : Store Message :=
  (Op.exec Codec.identity ⟨Store.empty, []⟩ (.update .background defaultGroupMessage)).1

def swInDefault : Message := .stream ⟨some ⟨goString "default", goString "sw", 0, 0, 0⟩, []⟩

/-- `UpdateGroup` and `UpdateStream` of two groups, `default` and `other`, and a
stream in each. -/
def twoGroupOps : List Op :=
  [.update .background defaultGroupMessage, .update .background swInDefault,
    .update .background (.group ⟨some ⟨[], goString "other", 0, 0, 0⟩, .stream, none, none⟩),
    .update .background (.stream ⟨some ⟨goString "other", goString "cpu", 0, 0, 0⟩, []⟩)]

def twoGroupStore : Store Message := (Op.run Codec.identity ⟨Store.empty, []⟩ twoGroupOps).1

theorem twoGroupStore_reachable :
    Reachable Codec.identity (fun _ op => op.Writes Message.Plain) twoGroupStore :=
  Reachable.empty.run [] fun op mem _ => (by decide : ∀ op ∈ twoGroupOps, op.Writes Message.Plain) op mem

/-- The groups `a` and `a/b`, each holding only its record. -/
def nestedGroups : Store Message :=
  (updateGroup Codec.identity
    ⟨(updateGroup Codec.identity ⟨Store.empty, []⟩ .background
      ⟨some ⟨[], goString "a", 0, 0, 0⟩, .stream, none, none⟩).kv, []⟩ .background
    ⟨some ⟨[], goString "a/b", 0, 0, 0⟩, .stream, none, none⟩).kv

/-- The catalog a group must have to own an entity of the kind: a stream needs a
stream group, a measure a measure group; index rules and bindings fit any. -/
def Kind.FitsCatalog : Kind → Commonv1.Catalog → Prop
  | .stream, catalog => catalog = .stream
  | .measure, catalog => catalog = .measure
  | _, _ => True

/-- The entity's group, as `GetGroup` reads it, is non-empty, stored, and of a
fitting catalog. -/
def OwnedBy (c : Codec V) (kv : Store V) (message : Message) : Prop :=
  message.envelope.owner ≠ [] ∧ ∃ group : Commonv1.Group,
    getGroup c .background message.envelope.owner kv = .ok (.group group) ∧
      message.kind.FitsCatalog group.catalog

def Owned (c : Codec V) (kv : Store V) : Prop :=
  ∀ key entry, kv.lookup key = some entry → ∃ message, message.Plain ∧
    c.marshal message = .ok entry.value ∧ message.envelope.key = key ∧
    (message.kind ≠ .group → OwnedBy c kv message)

/-- The checks a client makes before a call: an entity is written, under a
group without `/`, only when `GetGroup` reads that group with a fitting
catalog; a group is written, with a name without `/`, only with the catalog it
has when stored. Deletes are not checked. -/
def Op.Guarded (c : Codec V) (kv : Store V) : Op → Prop
  | .update _ message =>
      message.Plain ∧
      match message with
      | .group group => ∀ stored : Commonv1.Group,
          getGroup c .background (Commonv1.getName group.metadata) kv = .ok (.group stored) →
            stored.catalog = group.catalog
      | _ => OwnedBy c kv message
  | _ => True

theorem OwnedBy.congr {kv kv' : Store V} {message : Message} (owned : OwnedBy c kv message)
    (same : kv.lookup (formatGroupKey message.envelope.owner) =
      kv'.lookup (formatGroupKey message.envelope.owner)) : OwnedBy c kv' message := by
  obtain ⟨nonempty, group, read, fits⟩ := owned
  exact ⟨nonempty, group, (get_congr c _ _ same).symm.trans read, fits⟩

theorem formatGroupKey_ne_key {message : Message} (plain : message.Plain)
    (entity : message.kind ≠ .group) :
    formatGroupKey message.envelope.owner ≠ message.envelope.key := fun same => by
  rw [TypeMeta.key_eq] at same
  exact entity (envelope_kind message ▸ (entityKey_eq_formatGroupKey plain same.symm).1)

theorem OwnedBy.put_group {kv : Store V} {message : Message} (owned : OwnedBy c kv message)
    {group : Commonv1.Group} {val : V} (marshalled : c.marshal (.group group) = .ok val)
    (record : formatGroupKey message.envelope.owner = (Message.group group).envelope.key)
    (keeps : ∀ stored : Commonv1.Group,
      getGroup c .background (Commonv1.getName group.metadata) kv = .ok (.group stored) →
        stored.catalog = group.catalog) :
    OwnedBy c (kv.put (Message.group group).envelope.key val) message := by
  obtain ⟨nonempty, stored, read, fits⟩ := owned
  have name : Commonv1.getName group.metadata = message.envelope.owner :=
    formatGroupKey_inj record.symm
  have named : (Message.group group).envelope.owner ≠ [] := by
    show Commonv1.getName group.metadata ≠ []
    rw [name]
    exact nonempty
  obtain ⟨metadata, given⟩ := getMetadata_of_owner named
  have found : (kv.put (Message.group group).envelope.key val).lookup
      (formatGroupKey message.envelope.owner) = some ⟨val,
        ((kv.lookup (Message.group group).envelope.key).map (·.createRevision)).getD (kv.revision + 1),
        kv.revision + 1⟩ := by
    rw [record]
    exact Store.lookup_put_self ..
  refine ⟨nonempty, { group with metadata := some { metadata with
    createRevision := (((kv.lookup (Message.group group).envelope.key).map (·.createRevision)).getD
      (kv.revision + 1)), modRevision := kv.revision + 1 } }, ?_, ?_⟩
  · rw [getGroup, get_of_lookup c (show Context.background.err = none from rfl) _ found,
      decodeEntry_of_unmarshal (show c.unmarshal .group val = .ok (.group group) from
        c.unmarshal_marshal marshalled), assignRevisions_of_metadata given]
    rfl
  · rw [← name] at read
    exact keeps stored read ▸ fits

theorem Owned.remove {kv kv' : Store V} (owned : Owned c kv) (removed : List UInt8 → Prop)
    [DecidablePred removed] (lookup : ∀ k, kv'.lookup k = if removed k then none else kv.lookup k)
    (records : ∀ m : Message, m.Plain → m.kind ≠ .group → ¬ removed m.envelope.key →
      ¬ removed (formatGroupKey m.envelope.owner)) : Owned c kv' := by
  intro key entry found
  rw [lookup] at found
  split at found
  · cases found
  · rename_i kept
    obtain ⟨m, plainM, marshalledM, rfl, ownedM⟩ := owned _ entry found
    exact ⟨m, plainM, marshalledM, rfl, fun entity =>
      (ownedM entity).congr (by rw [lookup, if_neg (records m plainM entity kept)])⟩

/-- One call keeps ownership, whatever it deletes, when its write is guarded. -/
theorem Owned.exec {e : Registry V} {op : Op} (owned : Owned c e.kv) (guarded : op.Guarded c e.kv) :
    Owned c (op.exec c e).1 := by
  rcases Op.exec_cases c e op with same | ⟨ctx, u, val, rfl, marshalled, wrote⟩ |
    ⟨kind, group, name, entity, erased⟩ | ⟨x, erased⟩
  · rw [same]
    exact owned
  · -- a guarded put
    obtain ⟨plainU, guard⟩ := guarded
    rw [wrote]
    intro key entry found
    by_cases own : key = u.envelope.key
    · subst own
      rw [Store.lookup_put_self, Option.some_inj] at found
      subst found
      refine ⟨u, plainU, marshalled, rfl, fun entity => ?_⟩
      have ownedBefore : OwnedBy c e.kv u := by
        cases u with
        | group => exact absurd rfl entity
        | _ => exact guard
      exact ownedBefore.congr (Store.lookup_put_ne _ _ (formatGroupKey_ne_key plainU entity)).symm
    · rw [Store.lookup_put_ne _ _ own] at found
      obtain ⟨m, plainM, marshalledM, keyM, ownedM⟩ := owned key entry found
      refine ⟨m, plainM, marshalledM, keyM, fun entity => ?_⟩
      by_cases record : formatGroupKey m.envelope.owner = u.envelope.key
      · have isGroup : u.kind = .group := by
          rw [TypeMeta.key_eq, envelope_kind] at record
          exact (entityKey_eq_formatGroupKey plainM record.symm).1
        cases u with
        | group ug => exact (ownedM entity).put_group marshalled record guard
        | _ => cases isGroup
      · exact (ownedM entity).congr (Store.lookup_put_ne _ _ record).symm
  · -- a point delete of an entity never removes a group record
    rw [erased]
    exact owned.remove (· = entityKey group kind name) (Store.lookup_erase _ _)
      fun m plainM _ _ same => entity (entityKey_eq_formatGroupKey plainM same.symm).1
  · -- a subtree holding a group record holds its entities too
    have scan : ∀ k, inRange (subtreePrefix x) (incrementLastByte (subtreePrefix x)) k = true ↔
        subtreePrefix x <+: k := fun k => inRange_incrementLastByte (by decide) k
    rw [erased]
    refine owned.remove _ (Store.lookup_eraseRange _ _ _) fun m plainM _ outside inside => ?_
    obtain rfl := eq_of_subtreePrefix_prefix_formatGroupKey plainM ((scan _).mp inside)
    rw [TypeMeta.key_eq] at outside
    exact outside ((scan _).mpr (subtreePrefix_prefix_entityKey ..))

theorem guarded_runs_keep_ownership {kv : Store V} (reachable : Reachable c (Op.Guarded c) kv) :
    Owned c kv := by
  induction reachable with
  | empty => intro key entry found; simp at found
  | step handlers op _ guarded owned => exact owned.exec guarded

theorem guarded_runs_keep_ownership_default :
    Reachable Codec.identity (Op.Guarded Codec.identity)
      (Op.exec Codec.identity ⟨defaultGroupStore, []⟩ (.update .background swInDefault)).1 ∧
    Owned Codec.identity
      (Op.exec Codec.identity ⟨defaultGroupStore, []⟩ (.update .background swInDefault)).1 :=
  have reachable : Reachable Codec.identity (Op.Guarded Codec.identity)
      (Op.exec Codec.identity ⟨defaultGroupStore, []⟩ (.update .background swInDefault)).1 :=
    .step [] _ (.step [] _ .empty ⟨by decide, fun _ read => by cases read⟩)
      ⟨by decide, by decide, _, rfl, rfl⟩
  ⟨reachable, guarded_runs_keep_ownership reachable⟩

/-- `UpdateStream` does not read the group record: it stores a stream whose
group does not exist. -/
theorem stream_without_group :
    (updateStream Codec.identity ⟨Store.empty, []⟩ .background
        ⟨some ⟨goString "default", goString "sw", 0, 0, 0⟩, []⟩).result = .ok () ∧
    getStream Codec.identity .background (identity (goString "default") (goString "sw"))
        (updateStream Codec.identity ⟨Store.empty, []⟩ .background
          ⟨some ⟨goString "default", goString "sw", 0, 0, 0⟩, []⟩).kv =
      .ok (.stream ⟨some ⟨goString "default", goString "sw", 0, 2, 2⟩, []⟩) ∧
    getGroup Codec.identity .background (goString "default")
        (updateStream Codec.identity ⟨Store.empty, []⟩ .background
          ⟨some ⟨goString "default", goString "sw", 0, 0, 0⟩, []⟩).kv =
      .error .entityNotFound :=
  ⟨rfl, rfl, rfl⟩

end BanyanSchema
