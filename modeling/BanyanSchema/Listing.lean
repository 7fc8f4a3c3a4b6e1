import BanyanSchema.Groups

namespace BanyanSchema

open Etcd

/-! # Lists agree with gets

`ListStream`, `ListMeasure`, `ListIndexRule` and `ListIndexRuleBinding` scan
the range `[p, incrementLastByte p)` of their prefix `p` in the group, and
`ListGroup` scans all of `/groups/` for keys ending in `/__meta_group__`. On
stores whose messages are filed under groups without `/`, each scan meets only
keys of the identities it lists.
-/

variable {V : Type} {c : Codec V}

theorem decodeEntries_eq_ok {kind : Kind} :
    ∀ {entries : List (Σ _ : List UInt8, KeyValue V)} {messages : List Message},
      decodeEntries c kind entries = .ok messages →
        entries.map (decodeEntry c kind) = messages.map .ok
  | [], messages, done => by cases done; rfl
  | entry :: rest, messages, done => by
      simp only [decodeEntries] at done
      split at done
      · cases done
      · rename_i message first
        split at done
        · cases done
        · rename_i others rest_ok
          cases done
          simp [first, decodeEntries_eq_ok rest_ok]

theorem decodeEntries_of_decoded {kind : Kind} :
    ∀ {entries : List (Σ _ : List UInt8, KeyValue V)},
      (∀ entry ∈ entries, ∃ message, decodeEntry c kind entry = .ok message) →
        ∃ messages, decodeEntries c kind entries = .ok messages
  | [], _ => ⟨[], rfl⟩
  | entry :: rest, decoded => by
      obtain ⟨message, first⟩ := decoded entry (List.mem_cons_self _ _)
      obtain ⟨messages, others⟩ :=
        decodeEntries_of_decoded fun entry' mem => decoded entry' (List.mem_cons_of_mem _ mem)
      exact ⟨message :: messages, by simp [decodeEntries, first, others]⟩

theorem listWithPrefix_live {ctx : Context} (live : ctx.err = none) (keyPrefix : List UInt8)
    (kind : Kind) (kv : Store V) :
    listWithPrefix c ctx keyPrefix kind kv =
      decodeEntries c kind (kv.range keyPrefix (incrementLastByte keyPrefix)) := by
  simp [listWithPrefix, getRange, guarded, live]

section PrefixScan

variable {kv : Store V} {p rangeEnd : List UInt8}

theorem range_entry_extends (scan : ∀ k, inRange p rangeEnd k = true ↔ p <+: k)
    {entry : Σ _ : List UInt8, KeyValue V} (mem : entry ∈ kv.range p rangeEnd) :
    entry.1 = p ++ entry.1.drop p.length ∧ kv.lookup entry.1 = some entry.2 := by
  obtain ⟨inside, found⟩ := (Store.mem_range ..).mp mem
  obtain ⟨rest, same⟩ := (scan _).mp inside
  exact ⟨by rw [← same, List.drop_left], found⟩

theorem range_names_nodup (scan : ∀ k, inRange p rangeEnd k = true ↔ p <+: k) :
    ((kv.range p rangeEnd).map fun entry => entry.1.drop p.length).Nodup := by
  have keys : ((kv.range p rangeEnd).map Sigma.fst).Nodup := Store.range_nodupKeys ..
  rw [show (fun entry : Σ _ : List UInt8, KeyValue V => entry.1.drop p.length) =
    List.drop p.length ∘ Sigma.fst from rfl, ← List.map_map]
  refine keys.map_on fun k mem k' mem' same => ?_
  obtain ⟨entry, inside, rfl⟩ := List.mem_map.mp mem
  obtain ⟨entry', inside', rfl⟩ := List.mem_map.mp mem'
  rw [(range_entry_extends scan inside).1, (range_entry_extends scan inside').1, same]

theorem mem_range_names (scan : ∀ k, inRange p rangeEnd k = true ↔ p <+: k) (name : List UInt8) :
    name ∈ (kv.range p rangeEnd).map (fun entry => entry.1.drop p.length) ↔
      (kv.lookup (p ++ name)).isSome := by
  rw [List.mem_map]
  constructor
  · rintro ⟨entry, mem, rfl⟩
    rw [← (range_entry_extends scan mem).1, (range_entry_extends scan mem).2]
    rfl
  · intro found
    obtain ⟨value, found⟩ := Option.isSome_iff_exists.mp found
    exact ⟨⟨p ++ name, value⟩, (Store.mem_range ..).mpr ⟨(scan _).mpr (List.prefix_append _ _), found⟩,
      List.drop_left ..⟩

end PrefixScan

/-- The key of an entity in a non-empty group without `/` decodes, as its kind,
into a message of that kind and group. -/
theorem Stored.decodeEntry_entityKey {kv : Store V} (stored : Stored c Message.Plain kv)
    {group name : List UInt8} {kind : Kind} {entry : KeyValue V} (plain : (47 : UInt8) ∉ group)
    (nonempty : group ≠ []) (entity : kind ≠ .group)
    (found : kv.lookup (entityKey group kind name) = some entry) :
    ∃ message, decodeEntry c kind ⟨entityKey group kind name, entry⟩ = .ok message ∧
      message.kind = kind ∧ Commonv1.getGroup message.getMetadata = group := by
  obtain ⟨stored, marshalled, rfl, owner, -⟩ := stored.at_entityKey plain found
  obtain ⟨metadata, given⟩ := getMetadata_of_owner (owner ▸ nonempty)
  have : Commonv1.getGroup stored.getMetadata = group := by
    rw [← envelope_owner_of_ne_group entity, owner]
  rw [given] at this
  refine ⟨stored.setMetadata
    (some { metadata with createRevision := entry.createRevision, modRevision := entry.modRevision }),
    ?_, Message.kind_setMetadata .., ?_⟩
  · rw [decodeEntry_of_unmarshal (c.unmarshal_marshal marshalled), assignRevisions_of_metadata given]
  · simpa [Commonv1.getGroup] using this

theorem Stored.decodeEntry_of_scan {kv : Store V} (stored : Stored c Message.Plain kv)
    {group : List UInt8} {kind : Kind} (plain : (47 : UInt8) ∉ group) (nonempty : group ≠ [])
    (entity : kind ≠ .group) {p : List UInt8} (key : ∀ name, entityKey group kind name = p ++ name)
    (scan : ∀ k, inRange p (incrementLastByte p) k = true ↔ p <+: k)
    {entry : Σ _ : List UInt8, KeyValue V} (mem : entry ∈ kv.range p (incrementLastByte p)) :
    ∃ message, decodeEntry c kind entry = .ok message ∧
      message.kind = kind ∧ Commonv1.getGroup message.getMetadata = group := by
  obtain ⟨split, found⟩ := range_entry_extends scan mem
  rw [split, ← key] at found
  obtain ⟨message, decoded, props⟩ := stored.decodeEntry_entityKey plain nonempty entity found
  rw [key, ← split] at decoded
  exact ⟨message, decoded, props⟩

theorem list_agrees_with_get {kv : Store V}
    (reachable : Reachable c (fun _ op => op.Writes Message.Plain) kv) {ctx : Context}
    (live : ctx.err = none) {kind : Kind} (entity : kind ≠ .group) {group : List UInt8}
    (nonempty : group ≠ []) (plain : (47 : UInt8) ∉ group) :
    ∃ (names : List (List UInt8)) (entities : List Message),
      listEntity c ctx kind group kv = .ok entities ∧ names.Nodup ∧
      (∀ name, name ∈ names ↔ (kv.lookup (entityKey group kind name)).isSome) ∧
      names.map (fun name => getEntity c ctx kind group name kv) = entities.map .ok ∧
      ∀ message ∈ entities, message.kind = kind ∧ Commonv1.getGroup message.getMetadata = group := by
  have stored := reachable.stored fun _ _ => id
  rw [listEntity_scan c ctx entity nonempty, listWithPrefix_live live]
  have key := entityKey_of_ne_group entity group
  have scan : ∀ k, inRange (listPrefixesForEntity group kind.entityPrefix)
      (incrementLastByte (listPrefixesForEntity group kind.entityPrefix)) k = true ↔
        listPrefixesForEntity group kind.entityPrefix <+: k := by
    obtain ⟨word, slash⟩ := entityPrefix_slash entity
    rw [listPrefixesForEntity, slash, ← List.append_assoc]
    exact inRange_incrementLastByte (by decide)
  simp only [getEntity_eq, key]
  generalize listPrefixesForEntity group kind.entityPrefix = p at scan key
  have decodes {entry : Σ _ : List UInt8, KeyValue V} (mem : entry ∈ kv.range p (incrementLastByte p)) :=
    stored.decodeEntry_of_scan plain nonempty entity key scan mem
  obtain ⟨entities, listed⟩ :=
    decodeEntries_of_decoded fun entry mem => (decodes mem).imp fun _ found => found.1
  have decodedAll := decodeEntries_eq_ok listed
  refine ⟨_, entities, listed, range_names_nodup scan, mem_range_names scan, ?gets,
    fun message mem => ?props⟩
  case gets =>
    rw [← decodedAll, List.map_map]
    refine List.map_congr_left fun entry mem => ?_
    simp only [Function.comp, ← (range_entry_extends scan mem).1]
    exact get_of_lookup c live _ (range_entry_extends scan mem).2
  case props =>
    obtain ⟨entry, inside, decoded⟩ := List.mem_map.mp (decodedAll ▸ List.mem_map_of_mem Except.ok mem)
    obtain ⟨message', decoded', props⟩ := decodes inside
    rw [decoded', Except.ok.injEq] at decoded
    exact decoded ▸ props

theorem list_agrees_with_get_twoGroups :
    Reachable Codec.identity (fun _ op => op.Writes Message.Plain) twoGroupStore ∧
    Context.background.err = none ∧ Kind.stream ≠ .group ∧ goString "default" ≠ [] ∧
    (47 : UInt8) ∉ goString "default" ∧
    ∃ (names : List (List UInt8)) (entities : List Message),
      listEntity Codec.identity .background .stream (goString "default") twoGroupStore = .ok entities ∧
      names.Nodup ∧
      (∀ name, name ∈ names ↔ (twoGroupStore.lookup (entityKey (goString "default") .stream name)).isSome) ∧
      names.map (fun name => getEntity Codec.identity .background .stream (goString "default") name
        twoGroupStore) = entities.map .ok ∧
      ∀ message ∈ entities, message.kind = .stream ∧
        Commonv1.getGroup message.getMetadata = goString "default" :=
  ⟨twoGroupStore_reachable, rfl, nofun, by decide, by decide,
    list_agrees_with_get twoGroupStore_reachable rfl (by decide) (by decide) (by decide)⟩

/-- No call checks group names for `/`. The group `g/streams/x` files its
record under `/groups/g/streams/`, inside the scan of `ListStream(g)`, which
decodes that record as a stream whatever the codec: it fails, or returns a
value stored for another kind. A stream of that group is listed as one of
`g`. -/
theorem list_reaches_into_other_groups :
    (∀ {V : Type} (c : Codec V) (val : V),
      c.marshal (.group ⟨some ⟨[], goString "g/streams/x", 0, 0, 0⟩, .stream, none, none⟩) = .ok val →
      listStream c .background ⟨goString "g"⟩
          (updateGroup c ⟨Store.empty, []⟩ .background
            ⟨some ⟨[], goString "g/streams/x", 0, 0, 0⟩, .stream, none, none⟩).kv =
        decodeEntries c .stream [⟨formatGroupKey (goString "g/streams/x"), ⟨val, 2, 2⟩⟩]) ∧
    ∀ {V : Type} (c : Codec V) (val : V),
      c.marshal (.stream ⟨some ⟨goString "g/streams/x", goString "n", 0, 0, 0⟩, []⟩) = .ok val →
      listStream c .background ⟨goString "g"⟩
          (updateStream c ⟨Store.empty, []⟩ .background
            ⟨some ⟨goString "g/streams/x", goString "n", 0, 0, 0⟩, []⟩).kv =
        .ok [.stream ⟨some ⟨goString "g/streams/x", goString "n", 0, 2, 2⟩, []⟩] := by
  refine ⟨fun c val marshalled => ?group, fun c val marshalled => ?stream⟩
  case group =>
    simp only [updateGroup, update, updateRead, marshalled]
    rfl
  case stream =>
    have decoded : c.unmarshal .stream val =
        .ok (.stream ⟨some ⟨goString "g/streams/x", goString "n", 0, 0, 0⟩, []⟩) :=
      c.unmarshal_marshal marshalled
    simp only [updateStream, update, updateRead, marshalled]
    show decodeEntries c .stream [⟨_, ⟨val, 2, 2⟩⟩] = _
    simp only [decodeEntries, decodeEntry, decoded]
    rfl

/-- Filed under a group without `/`; for an entity, named so that its key does
not end in `/__meta_group__`: neither `__meta_group__` nor ending in
`/__meta_group__`. -/
def Message.Listable (message : Message) : Prop :=
  message.Plain ∧ (message.kind ≠ .group → ¬ groupMetadataKey <:+ 47 :: message.envelope.name)

instance : DecidablePred Message.Listable := fun message =>
  inferInstanceAs (Decidable (message.Plain ∧
    (message.kind ≠ .group → ¬ groupMetadataKey <:+ 47 :: message.envelope.name)))

/-- In a store of such messages, the keys ending in `/__meta_group__` are the
group records, each under its group's name. -/
theorem Stored.groupRecord {kv : Store V} (stored : Stored c Message.Listable kv)
    {key : List UInt8} {entry : KeyValue V} (found : kv.lookup key = some entry)
    (ends : groupMetadataKey <:+ key) :
    ∃ group : Message, group.kind = .group ∧ c.marshal group = .ok entry.value ∧
      key = formatGroupKey (Commonv1.getName group.getMetadata) := by
  obtain ⟨message, ⟨-, named⟩, marshalled, rfl⟩ := stored key entry found
  rw [TypeMeta.key_eq, envelope_kind] at ends ⊢
  by_cases isGroup : message.kind = .group
  · refine ⟨message, isGroup, marshalled, ?_⟩
    rw [isGroup, ← envelope_owner_of_group isGroup]
    rfl
  · exact absurd (groupMetadataKey_suffix_of_entity isGroup ends) (named isGroup)

/-- `ListGroup`'s loop over entries whose keys ending in `/__meta_group__` are
group records: it returns those groups, in scan order. -/
theorem decodeGroups_of_records :
    ∀ {entries : List (Σ _ : List UInt8, KeyValue V)},
      (∀ entry ∈ entries, groupMetadataKey <:+ entry.1 → ∃ group : Message, group.kind = .group ∧
        c.marshal group = .ok entry.2.value ∧
        entry.1 = formatGroupKey (Commonv1.getName group.getMetadata)) →
      ∃ groups, decodeGroups c entries = .ok groups ∧
        (entries.filter fun entry => groupMetadataKey.isSuffixOf entry.1).map Sigma.fst =
          groups.map (fun group => formatGroupKey (Commonv1.getName group.getMetadata)) ∧
        ∀ group ∈ groups, ∃ entry ∈ entries, group.kind = .group ∧
          c.marshal group = .ok entry.2.value ∧
          entry.1 = formatGroupKey (Commonv1.getName group.getMetadata)
  | [], _ => ⟨[], rfl, rfl, fun _ mem => absurd mem (List.not_mem_nil _)⟩
  | entry :: rest, records => by
      obtain ⟨groups, listed, keys, origins⟩ :=
        decodeGroups_of_records fun entry' mem => records entry' (List.mem_cons_of_mem _ mem)
      have later : ∀ group ∈ groups, ∃ entry' ∈ entry :: rest, group.kind = .group ∧
          c.marshal group = .ok entry'.2.value ∧
          entry'.1 = formatGroupKey (Commonv1.getName group.getMetadata) := fun group mem =>
        let ⟨entry', inside, props⟩ := origins group mem
        ⟨entry', List.mem_cons_of_mem _ inside, props⟩
      by_cases ends : groupMetadataKey <:+ entry.1
      · obtain ⟨group, isGroup, marshalled, key⟩ := records entry (List.mem_cons_self _ _) ends
        refine ⟨group :: groups, ?_, ?_, ?_⟩
        · simp [decodeGroups, ends, isGroup ▸ c.unmarshal_marshal marshalled, listed]
        · have keep : groupMetadataKey.isSuffixOf entry.1 = true := List.isSuffixOf_iff_suffix.mpr ends
          simp only [List.filter_cons, keep, if_true, List.map_cons, keys]
          rw [key]
        · rintro group' (_ | ⟨_, mem⟩)
          · exact ⟨entry, List.mem_cons_self _ _, isGroup, marshalled, key⟩
          · exact later group' mem
      · refine ⟨groups, ?_, ?_, later⟩
        · simp [decodeGroups, ends, listed]
        · have skip : groupMetadataKey.isSuffixOf entry.1 = false := by
            simpa only [Bool.not_eq_true] using mt List.isSuffixOf_iff_suffix.mp ends
          simpa only [List.filter_cons, skip] using keys

theorem listGroup_live {ctx : Context} (live : ctx.err = none) (kv : Store V) :
    listGroup c ctx kv = decodeGroups c (kv.range groupsKeyPrefix (incrementLastByte groupsKeyPrefix)) := by
  simp [listGroup, getRange, guarded, live]

theorem twoGroupStore_listable :
    Reachable Codec.identity (fun _ op => op.Writes Message.Listable) twoGroupStore :=
  Reachable.empty.run [] fun op mem _ => (by decide : ∀ op ∈ twoGroupOps, op.Writes Message.Listable) op mem

/-- `ListGroup` skips the "Assign readonly fields" step of `get` and
`listWithPrefix`: it returns the group `default` with the revisions its client
sent, where `GetGroup` returns the key's. And a stream named `__meta_group__`
ends like a group record, so `ListGroup` decodes its bytes as a group, whatever
the codec. -/
theorem listGroup_keeps_client_revisions :
    listGroup Codec.identity .background defaultGroupStore = .ok [defaultGroupMessage] ∧
    getGroup Codec.identity .background (goString "default") defaultGroupStore =
      .ok (.group ⟨some ⟨[], goString "default", 0, 2, 2⟩, .stream, none, none⟩) ∧
    ∀ {V : Type} (c : Codec V) (val : V),
      c.marshal (.stream ⟨some ⟨goString "default", goString "__meta_group__", 0, 0, 0⟩, []⟩) = .ok val →
      listGroup c .background (updateStream c ⟨Store.empty, []⟩ .background
          ⟨some ⟨goString "default", goString "__meta_group__", 0, 0, 0⟩, []⟩).kv =
        (c.unmarshal .group val).map ([·]) := by
  refine ⟨rfl, rfl, fun c val marshalled => ?_⟩
  simp only [updateStream, update, updateRead, marshalled]
  show decodeGroups c [⟨_, ⟨val, 2, 2⟩⟩] = _
  simp only [decodeGroups]
  cases c.unmarshal .group val <;> rfl

end BanyanSchema
