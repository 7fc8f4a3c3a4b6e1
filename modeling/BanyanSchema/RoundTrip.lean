import BanyanSchema.Registry

namespace BanyanSchema

open Etcd

/-! # Update, then Get

What a successful `Update…` leaves for the `Get…` of the same identity: the
message as given, with the revisions of its key, provided the message has the
metadata that `get` assigns them to. The other way round, `update` compares the
message it is given with the stored value decoded, revisions included
(`Metadata.Equal`), while the stored bytes keep the revisions the client sent
and `get` overwrites them with the key's.
-/

variable {V : Type}

theorem update_get_round_trip (c : Codec V) (e : Registry V) (ctx ctx' : Context)
    (message : Message) (metadata : Commonv1.Metadata)
    (hasMetadata : message.getMetadata = some metadata)
    (returned : (updateMessage c e ctx message).result = .ok ()) (live : ctx'.err = none) :
    ∃ kv, (updateMessage c e ctx message).kv.lookup message.envelope.key = some kv ∧
      getMessage c ctx' message (updateMessage c e ctx message).kv =
        .ok (message.setMetadata
          (some { metadata with createRevision := kv.createRevision, modRevision := kv.modRevision })) ∧
      (∀ old, e.kv.lookup message.envelope.key = some old → kv.createRevision = old.createRevision) ∧
      (e.kv.lookup message.envelope.key = none → kv.createRevision = kv.modRevision) ∧
      ((updateMessage c e ctx message).kv ≠ e.kv →
        e.kv.modRevisionOf message.envelope.key < kv.modRevision) := by
  rw [updateMessage_eq] at returned ⊢
  rw [getMessage_eq]
  obtain ⟨spec, given, ⟨entry, found, decoded, unchanged⟩ | ⟨val, marshalled, wrote⟩⟩ :=
    update_ok_cases returned
  all_goals rw [envelope_spec, Option.some_inj] at given; subst given
  · -- an equal value was stored: nothing is written
    rw [envelope_kind] at decoded
    rw [unchanged]
    refine ⟨entry, found, ?_, fun old stored => by cases found.symm.trans stored; rfl,
      fun absent => (nomatch found.symm.trans absent), fun changed => absurd rfl changed⟩
    rw [get_of_lookup c live _ found, decodeEntry_of_unmarshal decoded,
      assignRevisions_of_metadata hasMetadata]
  · -- a put or a won compare-and-swap
    rw [wrote]
    refine ⟨_, Store.lookup_put_self .., ?_, fun old stored => by simp [stored],
      fun absent => by simp [absent], fun _ => ?_⟩
    · rw [get_of_lookup c live _ (Store.lookup_put_self ..),
        decodeEntry_of_unmarshal (c.unmarshal_marshal marshalled), assignRevisions_of_metadata hasMetadata]
    · have := e.kv.modRevisionOf_le_revision message.envelope.key
      show _ < e.kv.revision + 1
      omega

def swMetadata : Commonv1.Metadata := ⟨goString "default", goString "sw", 0, 0, 0⟩

def swStream : Message := .stream ⟨some swMetadata, []⟩

def swStored : Store Message :=
  (updateMessage Codec.identity ⟨Store.empty, []⟩ .background swStream).kv

/-- `default/sw` as `GetStream` returns it from `swStored`: with the revisions
of its key. -/
def swReadBack : Message :=
  swStream.setMetadata (some { swMetadata with createRevision := 2, modRevision := 2 })

/-- A first insert of `default/sw`, and the replace path: `swReadBack` differs
from the stored bytes, so it is written by compare-and-swap. -/
theorem update_get_round_trip_sw :
    (swStream.getMetadata = some swMetadata ∧
      (updateMessage Codec.identity ⟨Store.empty, []⟩ .background swStream).result = .ok () ∧
      Context.background.err = none ∧
      ∃ kv, (updateMessage Codec.identity ⟨Store.empty, []⟩ .background swStream).kv.lookup
          swStream.envelope.key = some kv ∧
        getMessage Codec.identity .background swStream
            (updateMessage Codec.identity ⟨Store.empty, []⟩ .background swStream).kv =
          .ok (swStream.setMetadata
            (some { swMetadata with createRevision := kv.createRevision, modRevision := kv.modRevision })) ∧
        (∀ old, (Store.empty : Store Message).lookup swStream.envelope.key = some old →
          kv.createRevision = old.createRevision) ∧
        ((Store.empty : Store Message).lookup swStream.envelope.key = none →
          kv.createRevision = kv.modRevision) ∧
        ((updateMessage Codec.identity ⟨Store.empty, []⟩ .background swStream).kv ≠ Store.empty →
          (Store.empty : Store Message).modRevisionOf swStream.envelope.key < kv.modRevision)) ∧
    (swReadBack.getMetadata = some { swMetadata with createRevision := 2, modRevision := 2 } ∧
      (updateMessage Codec.identity ⟨swStored, []⟩ .background swReadBack).result = .ok () ∧
      ∃ kv, (updateMessage Codec.identity ⟨swStored, []⟩ .background swReadBack).kv.lookup
          swReadBack.envelope.key = some kv ∧
        getMessage Codec.identity .background swReadBack
            (updateMessage Codec.identity ⟨swStored, []⟩ .background swReadBack).kv =
          .ok (swReadBack.setMetadata
            (some { swMetadata with createRevision := kv.createRevision, modRevision := kv.modRevision })) ∧
        (∀ old, swStored.lookup swReadBack.envelope.key = some old →
          kv.createRevision = old.createRevision) ∧
        (swStored.lookup swReadBack.envelope.key = none → kv.createRevision = kv.modRevision) ∧
        ((updateMessage Codec.identity ⟨swStored, []⟩ .background swReadBack).kv ≠ swStored →
          swStored.modRevisionOf swReadBack.envelope.key < kv.modRevision)) :=
  ⟨⟨rfl, rfl, rfl, update_get_round_trip Codec.identity ⟨Store.empty, []⟩ .background .background
      swStream swMetadata rfl rfl rfl⟩,
    ⟨rfl, rfl, update_get_round_trip Codec.identity ⟨swStored, []⟩ .background .background
      swReadBack { swMetadata with createRevision := 2, modRevision := 2 } rfl rfl rfl⟩⟩

/-- An `update` whose key holds a value that decodes to its own spec writes
nothing and calls no handler, whatever it returns. -/
theorem update_of_stored (c : Codec V) (e : Registry V) (ctx : Context) {metadata : Metadata}
    {spec : Message} (given : metadata.spec = some spec) {entry : KeyValue V}
    (found : e.kv.lookup metadata.key = some entry)
    (decoded : c.unmarshal metadata.kind entry.value = .ok spec) :
    (update c e ctx metadata).kv = e.kv ∧ (update c e ctx metadata).notifications = [] := by
  unfold update
  rcases updateRead_cases c ctx metadata e.kv with ⟨_, read⟩ | ⟨-, -, -, -, -, -, read⟩ |
    ⟨-, absent, -⟩ | ⟨-, entry', spec', -, existing, found', given', -, decoded', differs, -⟩
  · rw [read]
    exact ⟨rfl, rfl⟩
  · rw [read]
    exact ⟨rfl, rfl⟩
  · rw [found] at absent
    cases absent
  · rw [found, Option.some_inj] at found'
    rw [given, Option.some_inj] at given'
    subst found' given'
    rw [decoded, Except.ok.injEq] at decoded'
    exact absurd decoded' differs

theorem updateMessage_stored {c : Codec V} {e : Registry V} {ctx : Context} {message : Message}
    (returned : (updateMessage c e ctx message).result = .ok ()) :
    ∃ entry, (updateMessage c e ctx message).kv.lookup message.envelope.key = some entry ∧
      c.unmarshal message.kind entry.value = .ok message := by
  rw [updateMessage_eq] at returned ⊢
  obtain ⟨spec, given, ⟨entry, found, decoded, unchanged⟩ | ⟨val, marshalled, wrote⟩⟩ :=
    update_ok_cases returned
  all_goals rw [envelope_spec, Option.some_inj] at given; subst given
  · rw [unchanged]
    exact ⟨entry, found, by rwa [envelope_kind] at decoded⟩
  · rw [wrote]
    exact ⟨_, Store.lookup_put_self .., c.unmarshal_marshal marshalled⟩

theorem updateMessage_of_stored (c : Codec V) (e : Registry V) (ctx : Context) {message : Message}
    {entry : KeyValue V} (found : e.kv.lookup message.envelope.key = some entry)
    (decoded : c.unmarshal message.kind entry.value = .ok message) :
    (updateMessage c e ctx message).kv = e.kv ∧ (updateMessage c e ctx message).notifications = [] := by
  rw [updateMessage_eq]
  exact update_of_stored c e ctx (envelope_spec message) found (by rwa [envelope_kind])

theorem update_idempotent (c : Codec V) (ctx : Context) (message : Message) :
    (∀ (e : Registry V) (entry : KeyValue V), e.kv.lookup message.envelope.key = some entry →
      c.unmarshal message.kind entry.value = .ok message →
      (updateMessage c e ctx message).kv = e.kv ∧ (updateMessage c e ctx message).notifications = []) ∧
    ∀ (e : Registry V) (ctx₀ : Context), (updateMessage c e ctx₀ message).result = .ok () →
      (updateMessage c ⟨(updateMessage c e ctx₀ message).kv, e.handlers⟩ ctx message).kv =
          (updateMessage c e ctx₀ message).kv ∧
        (updateMessage c ⟨(updateMessage c e ctx₀ message).kv, e.handlers⟩ ctx message).notifications =
          [] :=
  ⟨fun e _ found decoded => updateMessage_of_stored c e ctx found decoded,
    fun _ _ returned =>
      let ⟨_, found, decoded⟩ := updateMessage_stored returned
      updateMessage_of_stored c _ ctx found decoded⟩

theorem update_idempotent_sw :
    (swStored.lookup swStream.envelope.key = some ⟨swStream, 2, 2⟩ ∧
      Codec.identity.unmarshal swStream.kind swStream = .ok swStream ∧
      (updateMessage Codec.identity ⟨swStored, []⟩ .background swStream).kv = swStored ∧
      (updateMessage Codec.identity ⟨swStored, []⟩ .background swStream).notifications = []) ∧
    (updateMessage Codec.identity ⟨Store.empty, []⟩ .background swStream).result = .ok () ∧
    (updateMessage Codec.identity ⟨swStored, []⟩ .background swStream).kv = swStored ∧
    (updateMessage Codec.identity ⟨swStored, []⟩ .background swStream).notifications = [] :=
  ⟨⟨rfl, rfl, (update_idempotent Codec.identity .background swStream).1 ⟨swStored, []⟩ _ rfl rfl⟩,
    rfl, (update_idempotent Codec.identity .background swStream).2 ⟨Store.empty, []⟩ .background rfl⟩

/-- The stored bytes keep the revisions the client sent, so the message read
back differs from them: `UpdateStream` of it writes it again by
compare-and-swap and notifies. -/
theorem update_rewrites_read_back :
    getMessage Codec.identity .background swStream swStored = .ok swReadBack ∧
    (updateMessage Codec.identity ⟨swStored, [⟨kindMask, 0⟩]⟩ .background swReadBack).kv.lookup
        swStream.envelope.key = some ⟨swReadBack, 2, 3⟩ ∧
    (updateMessage Codec.identity ⟨swStored, [⟨kindMask, 0⟩]⟩ .background swReadBack).notifications =
      [⟨0, 0, .onAddOrUpdate, swReadBack.envelope⟩] :=
  ⟨rfl, rfl, rfl⟩

/-- A stream without metadata is stored, under `/groups//streams/`, but `get`
has no metadata to assign the revisions to and panics. -/
theorem update_get_without_metadata :
    (updateStream Codec.identity ⟨Store.empty, []⟩ .background ⟨none, []⟩).result = .ok () ∧
    getStream Codec.identity .background none
        (updateStream Codec.identity ⟨Store.empty, []⟩ .background ⟨none, []⟩).kv =
      .error .nilPointerDereference :=
  ⟨rfl, rfl⟩

end BanyanSchema
