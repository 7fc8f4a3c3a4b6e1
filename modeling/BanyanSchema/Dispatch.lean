import BanyanSchema.Concurrency
import BanyanSchema.Notifications
import BanyanSchema.Groups

namespace BanyanSchema

open Etcd

/-! # Handler calls after the round trip

`update`, `delete` and `DeleteGroup` run `notifyUpdate` or `notifyDelete` after
their write has returned, holding no lock: the handler calls of one client are
made one at a time while every other client may run, and the call returns
after the last of them. A `Server` step of a client with handler calls pending
makes the next one; otherwise the client makes its next round trip, and a
commit leaves what it owes pending. Runs of a server leave the store and every
call as the runs of the fused `World` do over the same round trips, and each
client's handler calls, made and pending, are those the fused run made for it.
Clients on distinct keys are linearizable at their commits: the store, and
what each client owes its handlers, are those of the committed calls run one
after another in commit order, though the handler calls of different clients
interleave.
-/

variable {V : Type} {c : Codec V}

/-- The call a client makes for an operation of the write API. -/
def Op.call : Op → Call V
  | .update ctx message => .update ctx message.envelope
  | .deleteMeasure ctx metadata => .delete ctx (deletion .measure metadata)
  | .deleteStream ctx metadata => .delete ctx (deletion .stream metadata)
  | .deleteIndexRuleBinding ctx metadata => .delete ctx (deletion .indexRuleBinding metadata)
  | .deleteIndexRule ctx metadata => .delete ctx (deletion .indexRule metadata)
  | .deleteGroup ctx group => .deleteGroup ctx group

/-- A call that has made its last round trip. -/
def Call.finished : Call V → Bool
  | .updated .. | .deleted _ => true
  | _ => false

theorem Call.step_finished {call : Call V} (finished : call.finished = true)
    (handlers : List EventHandler) (kv : Store V) : call.step c handlers kv = ⟨call, kv, []⟩ := by
  cases call <;> first | rfl | cases finished

/-- A client: its call, and the handler calls its notify loop has still to
make. It has returned once its call has finished and nothing is pending. -/
structure Client (V : Type) where
  call : Call V
  pending : List Notification

/-- The server, its handlers, every client, and the handler calls made so far,
each with the client that made it. -/
structure Server (V : Type) where
  kv : Store V
  handlers : List EventHandler
  clients : List (Client V)
  log : List (Nat × Notification)

/-- The handler calls made for client `i`, in the order they were made. -/
def delivered (log : List (Nat × Notification)) (i : Nat) : List Notification :=
  (log.filter (·.1 = i)).map Prod.snd

theorem delivered_append (log log' : List (Nat × Notification)) (i : Nat) :
    delivered (log ++ log') i = delivered log i ++ delivered log' i := by
  simp [delivered, List.filter_append]

theorem delivered_map (notifications : List Notification) (j i : Nat) :
    delivered (notifications.map ((j, ·))) i = if j = i then notifications else [] := by
  unfold delivered
  split
  · subst j
    simp [List.filter_map, Function.comp_def]
  · simp [List.filter_map, Function.comp_def, *]

namespace Server

/-- Client `i` makes its next handler call if one is pending, and otherwise
its next round trip, which leaves the handler calls it owes pending. -/
def step (c : Codec V) (s : Server V) (i : Nat) : Server V :=
  match s.clients[i]? with
  | none => s
  | some ⟨call, n :: rest⟩ =>
      { s with clients := s.clients.set i ⟨call, rest⟩, log := s.log ++ [(i, n)] }
  | some ⟨call, []⟩ =>
      let stepped := call.step c s.handlers s.kv
      { s with kv := stepped.kv, clients := s.clients.set i ⟨stepped.call, stepped.notifications⟩ }

def run (c : Codec V) (s : Server V) : List Nat → Server V
  | [] => s
  | i :: rest => (s.step c i).run c rest

def issue (kv : Store V) (handlers : List EventHandler) (calls : List (Call V)) : Server V :=
  ⟨kv, handlers, calls.map fun call => ⟨call, []⟩, []⟩

def pendingOf (s : Server V) (i : Nat) : List Notification :=
  ((s.clients[i]?).map Client.pending).getD []

def roundTrip (s : Server V) (i : Nat) : Bool :=
  match s.clients[i]? with
  | some ⟨_, []⟩ => true
  | _ => false

/-- The clients of a schedule's round trips, in order. -/
def roundTrips (c : Codec V) (s : Server V) : List Nat → List Nat
  | [] => []
  | i :: rest => (if s.roundTrip i then [i] else []) ++ (s.step c i).roundTrips c rest

def committing (c : Codec V) (s : Server V) (i : Nat) : Bool :=
  match s.clients[i]? with
  | some ⟨call, []⟩ => !call.finished && (call.step c s.handlers s.kv).call.finished
  | _ => false

/-- The clients of a schedule in the order their calls finish. -/
def commits (c : Codec V) (s : Server V) : List Nat → List Nat
  | [] => []
  | i :: rest => (if s.committing c i then [i] else []) ++ (s.step c i).commits c rest

@[simp] theorem run_nil (s : Server V) : s.run c [] = s := rfl

@[simp] theorem run_cons (s : Server V) (i : Nat) (rest : List Nat) :
    s.run c (i :: rest) = (s.step c i).run c rest := rfl

variable {s : Server V} {i : Nat} {call : Call V}

theorem step_of_dispatch {n : Notification} {rest : List Notification}
    (found : s.clients[i]? = some ⟨call, n :: rest⟩) :
    s.step c i = ⟨s.kv, s.handlers, s.clients.set i ⟨call, rest⟩, s.log ++ [(i, n)]⟩ := by
  simp only [step, found]

theorem step_of_roundTrip (found : s.clients[i]? = some ⟨call, []⟩) :
    s.step c i = ⟨(call.step c s.handlers s.kv).kv, s.handlers,
      s.clients.set i ⟨(call.step c s.handlers s.kv).call, (call.step c s.handlers s.kv).notifications⟩,
      s.log⟩ := by
  simp only [step, found]

@[simp] theorem step_handlers (s : Server V) (i : Nat) : (s.step c i).handlers = s.handlers := by
  unfold step
  split <;> rfl

theorem length_step_clients (s : Server V) (i : Nat) :
    (s.step c i).clients.length = s.clients.length := by
  unfold step
  split <;> simp

theorem step_clients_ne (s : Server V) {j : Nat} (other : j ≠ i) :
    (s.step c i).clients[j]? = s.clients[j]? := by
  unfold step
  split
  · rfl
  · exact List.getElem?_set_ne (Ne.symm other)
  · exact List.getElem?_set_ne (Ne.symm other)

theorem pendingOf_eq {client : Client V} (found : s.clients[i]? = some client) :
    s.pendingOf i = client.pending := by
  simp [pendingOf, found]

theorem step_pendingOf_ne (s : Server V) {j : Nat} (other : j ≠ i) :
    (s.step c i).pendingOf j = s.pendingOf j := by
  simp only [pendingOf, step_clients_ne s other]

theorem clients_set_self {client client' : Client V} (found : s.clients[i]? = some client) :
    (s.clients.set i client')[i]? = some client' :=
  List.getElem?_set_self (List.getElem?_eq_some_iff.mp found).1

theorem step_clients_of_dispatch {n : Notification} {rest : List Notification}
    (found : s.clients[i]? = some ⟨call, n :: rest⟩) : (s.step c i).clients[i]? = some ⟨call, rest⟩ := by
  rw [step_of_dispatch found]
  exact clients_set_self found

theorem step_clients_of_roundTrip (found : s.clients[i]? = some ⟨call, []⟩) :
    (s.step c i).clients[i]? =
      some ⟨(call.step c s.handlers s.kv).call, (call.step c s.handlers s.kv).notifications⟩ := by
  rw [step_of_roundTrip found]
  exact clients_set_self found

theorem clients_set_call {client : Client V} (found : s.clients[i]? = some client) (client' : Client V)
    (same : client'.call = client.call) :
    (s.clients.set i client').map Client.call = s.clients.map Client.call := by
  refine List.ext_getElem? fun j => ?_
  rw [List.getElem?_map, List.getElem?_map]
  by_cases own : i = j
  · subst own
    rw [clients_set_self found, found, Option.map_some', Option.map_some', same]
  · rw [List.getElem?_set_ne own]

theorem step_of_finished (found : s.clients[i]? = some ⟨call, []⟩) (finished : call.finished = true) :
    s.step c i = s := by
  rw [step_of_roundTrip found, Call.step_finished finished]
  have kept : s.clients.set i ⟨call, []⟩ = s.clients := List.ext_getElem? fun j => by
    by_cases own : i = j
    · subst own
      rw [clients_set_self found, found]
    · exact List.getElem?_set_ne own
  simp only [kept]

@[simp] theorem run_handlers (s : Server V) (l : List Nat) : (s.run c l).handlers = s.handlers := by
  induction l generalizing s with
  | nil => rfl
  | cons i rest ih => rw [run_cons, ih, step_handlers]

theorem step_owed_of_dispatch {n : Notification} {rest : List Notification}
    (found : s.clients[i]? = some ⟨call, n :: rest⟩) (j : Nat) :
    delivered (s.step c i).log j ++ (s.step c i).pendingOf j = delivered s.log j ++ s.pendingOf j := by
  by_cases own : j = i
  · subst own
    rw [pendingOf_eq (step_clients_of_dispatch found), pendingOf_eq found, step_of_dispatch found]
    simp [delivered_append, delivered]
  · rw [step_pendingOf_ne s own, step_of_dispatch found, delivered_append]
    simp [delivered, Ne.symm own]

/-- The server stands for the fused world `w`: the same store, handlers and
calls, and for each client the handler calls made and still pending are those
`w` made for it. -/
structure Refines (s : Server V) (w : World V) : Prop where
  kv : s.kv = w.kv
  handlers : s.handlers = w.handlers
  calls : s.clients.map Client.call = w.calls
  log : ∀ i, delivered s.log i ++ s.pendingOf i = delivered w.log i

theorem Refines.step {w : World V} (refines : s.Refines w) (i : Nat) :
    (s.step c i).Refines (if s.roundTrip i then w.step c i else w) := by
  cases found : s.clients[i]? with
  | none => simpa only [Server.step, roundTrip, found, Bool.false_eq_true, if_false] using refines
  | some client =>
      obtain ⟨call, pending⟩ := client
      cases pending with
      | cons n rest =>
          have trip : s.roundTrip i = false := by simp [roundTrip, found]
          have stepped := s.step_of_dispatch (c := c) found
          simp only [trip, Bool.false_eq_true, if_false]
          refine ⟨?_, ?_, ?_, fun j => (step_owed_of_dispatch found j).trans (refines.log j)⟩
          all_goals rw [stepped]
          · exact refines.kv
          · exact refines.handlers
          · exact (clients_set_call found ⟨call, rest⟩ rfl).trans refines.calls
      | nil =>
          have called : w.calls[i]? = some call := by
            rw [← refines.calls, List.getElem?_map, found]
            rfl
          have trip : s.roundTrip i = true := by simp [roundTrip, found]
          have stepped := s.step_of_roundTrip (c := c) found
          have fused := World.step_of_call (c := c) called
          rw [← refines.kv, ← refines.handlers] at fused
          simp only [trip, if_true]
          refine ⟨by rw [stepped, fused], by rw [stepped, fused], ?_, fun j => ?_⟩
          · rw [stepped, fused]
            simp only [List.map_set, refines.calls]
          · rw [fused, delivered_append, delivered_map, ← refines.log j]
            by_cases own : j = i
            · subst own
              rw [pendingOf_eq (step_clients_of_roundTrip found), pendingOf_eq found, stepped]
              simp
            · rw [step_pendingOf_ne s own, stepped, if_neg (Ne.symm own), List.append_nil]

theorem Refines.run {w : World V} (refines : s.Refines w) (schedule : List Nat) :
    (s.run c schedule).Refines (w.run c (s.roundTrips c schedule)) := by
  induction schedule generalizing s w with
  | nil => exact refines
  | cons i rest ih =>
      by_cases trip : s.roundTrip i
      · simpa [roundTrips, trip] using ih (refines.step i)
      · simpa [roundTrips, trip] using ih (refines.step i)

end Server

/-- On one key, the handler calls of two updates arrive out of commit order:
the first insert of `[1]` commits, the compare-and-swap to `[2]` commits and
makes its handler call, and only then is `[1]` reported. -/
example :
    let s := (Server.issue Store.empty [⟨kindMask, 0⟩]
      [.update .background (raceUpdate [1]), .update .background (raceUpdate [2])]).run Codec.identity
        [0, 0, 1, 1, 1, 0]
    (s.kv.lookup raceKey).map (·.value) = some (.stream (raceStream [2])) ∧
    s.log.map (·.2.metadata.spec) = [some (.stream (raceStream [2])), some (.stream (raceStream [1]))] :=
  ⟨rfl, rfl⟩

/-- The one key an operation's call reads and writes: the message's own key
for `Update…`, the entity's key for `Delete…`. `DeleteGroup` removes a range. -/
def Op.pointKey : Op → Option (List UInt8)
  | .update _ message => some message.envelope.key
  | .deleteMeasure _ metadata => some (deletion .measure metadata).key
  | .deleteStream _ metadata => some (deletion .stream metadata).key
  | .deleteIndexRuleBinding _ metadata => some (deletion .indexRuleBinding metadata).key
  | .deleteIndexRule _ metadata => some (deletion .indexRule metadata).key
  | .deleteGroup .. => none

/-- A client whose operation is `op` and whose call has not finished: its call
is as issued, or it is an update whose read is what it would read from `kv`
now. -/
def Pending (c : Codec V) (kv : Store V) (op : Op) (call : Call V) : Prop :=
  call = op.call ∨ ∃ ctx message, op = .update ctx message ∧
    call = .updating ctx message.envelope (updateRead c ctx message.envelope kv)

theorem updateRead_congr (ctx : Context) (metadata : Metadata) {kv kv' : Store V}
    (same : kv'.lookup metadata.key = kv.lookup metadata.key) :
    updateRead c ctx metadata kv' = updateRead c ctx metadata kv := by
  simp only [updateRead, Etcd.get, same]

theorem Op.exec_lookup_ne (e : Registry V) {op : Op} {key : List UInt8} (point : op.pointKey = some key)
    {key' : List UInt8} (other : key' ≠ key) : (op.exec c e).1.lookup key' = e.kv.lookup key' := by
  cases op with
  | update ctx message =>
      cases point
      rcases update_cases c e ctx message.envelope with ⟨_, same⟩ | ⟨_, _, -, -, wrote⟩
      · simp only [Op.exec, Outcome.effect, updateMessage_eq, same]
      · simp only [Op.exec, Outcome.effect, updateMessage_eq, wrote]
        exact Store.lookup_put_ne _ _ other
  | deleteMeasure ctx metadata | deleteStream ctx metadata | deleteIndexRuleBinding ctx metadata
  | deleteIndexRule ctx metadata =>
      cases point
      show (BanyanSchema.delete c e ctx (deletion _ metadata)).kv.lookup key' = _
      rcases delete_kv c e ctx (deletion _ metadata) with same | erased
      · rw [same]
      · rw [erased, Store.lookup_erase, if_neg other]
  | deleteGroup => cases point

namespace Pending

variable {kv : Store V} {op : Op} {call : Call V}

theorem step (pending : Pending c kv op call) {key : List UInt8} (point : op.pointKey = some key)
    (handlers : List EventHandler) :
    call.finished = false ∧
      (((call.step c handlers kv).kv = kv ∧ (call.step c handlers kv).notifications = [] ∧
          (call.step c handlers kv).call.finished = false ∧ Pending c kv op (call.step c handlers kv).call) ∨
        ((call.step c handlers kv).call.finished = true ∧
          ((call.step c handlers kv).kv, (call.step c handlers kv).notifications) =
            op.exec c ⟨kv, handlers⟩)) := by
  rcases pending with rfl | ⟨ctx, message, rfl, rfl⟩
  · cases op with
    | update ctx message => exact ⟨rfl, .inl ⟨rfl, rfl, rfl, .inr ⟨ctx, message, rfl, rfl⟩⟩⟩
    | deleteGroup => cases point
    | _ => exact ⟨rfl, .inr ⟨rfl, rfl⟩⟩
  · refine ⟨rfl, .inr ⟨rfl, ?_⟩⟩
    rw [Op.exec, Outcome.effect, updateMessage_eq]
    rfl

theorem frame (pending : Pending c kv op call) {key : List UInt8} (point : op.pointKey = some key)
    {kv' : Store V} (same : kv'.lookup key = kv.lookup key) : Pending c kv' op call := by
  rcases pending with rfl | ⟨ctx, message, rfl, rfl⟩
  · exact .inl rfl
  · cases point
    exact .inr ⟨ctx, message, rfl, by rw [updateRead_congr ctx message.envelope same]⟩

end Pending

theorem Op.pointKey_ne {ops : List Op} (distinct : (ops.map Op.pointKey).Nodup) {i j : Nat} (other : j ≠ i)
    {op op' : Op} (found : ops[i]? = some op) (found' : ops[j]? = some op') {key : List UInt8}
    (point : op.pointKey = some key) : op'.pointKey ≠ some key := by
  intro same
  have bound := (List.getElem?_eq_some_iff.mp found).1
  have bound' := (List.getElem?_eq_some_iff.mp found').1
  have agree : (ops.map Op.pointKey)[i]? = (ops.map Op.pointKey)[j]? := by
    simp only [List.getElem?_map, found, found', Option.map_some', point, same]
  rcases Nat.lt_or_gt_of_ne other with before | after
  · exact List.nodup_iff_getElem?_ne_getElem?.mp distinct j i before (by simpa using bound) agree.symm
  · exact List.nodup_iff_getElem?_ne_getElem?.mp distinct i j after (by simpa using bound') agree

theorem Op.run_concat (e : Registry V) (ops : List Op) (op : Op) :
    Op.run c e (ops ++ [op]) =
      ((op.exec c ⟨(Op.run c e ops).1, e.handlers⟩).1,
        (Op.run c e ops).2 ++ (op.exec c ⟨(Op.run c e ops).1, e.handlers⟩).2) := by
  induction ops generalizing e with
  | nil => simp [Op.run]
  | cons first ops ih => simp [Op.run, ih]

/-- The server's clients run `ops` from the registry `e₀`, and those in
`committed` have finished, in that order: the store is that of their
operations run one after another; what the `k`-th of them has made and has
pending for its handlers is what its operation makes after the first `k`;
every handler call made is one of theirs; and every other client is pending
with nothing owed. -/
structure Server.Linear (s : Server V) (c : Codec V) (e₀ : Registry V) (ops : List Op)
    (committed : List Nat) : Prop where
  handlers : s.handlers = e₀.handlers
  kv : s.kv = (Op.run c e₀ (committed.filterMap (ops[·]?))).1
  owed : ∀ k i, committed[k]? = some i → ∃ op, ops[i]? = some op ∧
    delivered s.log i ++ s.pendingOf i =
      (op.exec c ⟨(Op.run c e₀ ((committed.take k).filterMap (ops[·]?))).1, e₀.handlers⟩).2
  logged : ∀ entry ∈ s.log, entry.1 ∈ committed
  clients : ∀ i op, ops[i]? = some op → ∃ client, s.clients[i]? = some client ∧
    (i ∈ committed ∧ client.call.finished = true ∨
      i ∉ committed ∧ client.pending = [] ∧ Pending c s.kv op client.call)
  nodup : committed.Nodup
  length : s.clients.length = ops.length

namespace Server.Linear

variable {s : Server V} {e₀ : Registry V} {ops : List Op} {committed : List Nat} {i : Nat} {call : Call V}

theorem state (linear : s.Linear c e₀ ops committed) {client : Client V} (found : s.clients[i]? = some client) :
    ∃ op, ops[i]? = some op ∧ (i ∈ committed ∧ client.call.finished = true ∨
      i ∉ committed ∧ client.pending = [] ∧ Pending c s.kv op client.call) := by
  have bound : i < ops.length := linear.length ▸ (List.getElem?_eq_some_iff.mp found).1
  obtain ⟨client', found', state⟩ := linear.clients i ops[i] (List.getElem?_eq_getElem bound)
  rw [found, Option.some_inj] at found'
  subst found'
  exact ⟨ops[i], List.getElem?_eq_getElem bound, state⟩

theorem owed_of_fresh (linear : s.Linear c e₀ ops committed) (fresh : i ∉ committed)
    (log : (s.step c i).log = s.log) {k j : Nat} (at' : committed[k]? = some j) :
    ∃ op, ops[j]? = some op ∧ delivered (s.step c i).log j ++ (s.step c i).pendingOf j =
      (op.exec c ⟨(Op.run c e₀ ((committed.take k).filterMap (ops[·]?))).1, e₀.handlers⟩).2 := by
  rw [step_pendingOf_ne s fun (same : j = i) => fresh (same ▸ List.getElem?_mem at'), log]
  exact linear.owed k j at'

/-- A handler call changes neither the store nor what any client owes. -/
theorem step_dispatch (linear : s.Linear c e₀ ops committed) {n : Notification} {rest : List Notification}
    (found : s.clients[i]? = some ⟨call, n :: rest⟩) : (s.step c i).Linear c e₀ ops committed := by
  obtain ⟨-, -, ⟨committed', finished⟩ | ⟨-, ⟨⟩, -⟩⟩ := linear.state found
  have stepped := s.step_of_dispatch (c := c) found
  refine ⟨(s.step_handlers i).trans linear.handlers, by rw [stepped]; exact linear.kv, fun k j at' => ?_,
    fun entry mem => ?_, fun j op' listed' => ?_, linear.nodup, (s.length_step_clients i).trans linear.length⟩
  · obtain ⟨op', listed', owed⟩ := linear.owed k j at'
    exact ⟨op', listed', (step_owed_of_dispatch found j).trans owed⟩
  · rw [stepped, List.mem_append, List.mem_singleton] at mem
    rcases mem with mem | rfl
    · exact linear.logged entry mem
    · exact committed'
  · rcases eq_or_ne j i with rfl | own
    · exact ⟨_, step_clients_of_dispatch found, .inl ⟨committed', finished⟩⟩
    · obtain ⟨client, at', state⟩ := linear.clients j op' listed'
      refine ⟨client, (s.step_clients_ne own).trans at', ?_⟩
      rwa [show (s.step c i).kv = s.kv by rw [stepped]]

section

variable (points : ∀ op ∈ ops, op.pointKey ≠ none) (distinct : (ops.map Op.pointKey).Nodup)
include points distinct

theorem others (linear : s.Linear c e₀ ops committed) {op : Op} (listed : ops[i]? = some op)
    {key : List UInt8} (point : op.pointKey = some key) {extra : List Nat} (onlyI : ∀ j ∈ extra, j = i)
    (frame : ∀ k, k ≠ key → (s.step c i).kv.lookup k = s.kv.lookup k) {j : Nat} {op' : Op} (other : j ≠ i)
    (listed' : ops[j]? = some op') :
    ∃ client, (s.step c i).clients[j]? = some client ∧
      (j ∈ committed ++ extra ∧ client.call.finished = true ∨
        j ∉ committed ++ extra ∧ client.pending = [] ∧ Pending c (s.step c i).kv op' client.call) := by
  obtain ⟨client, found, state⟩ := linear.clients j op' listed'
  refine ⟨client, (s.step_clients_ne other).trans found, ?_⟩
  rcases state with ⟨mem, finished⟩ | ⟨uncommitted, idle, pending⟩
  · exact .inl ⟨List.mem_append_left _ mem, finished⟩
  obtain ⟨key', point'⟩ := Option.ne_none_iff_exists'.mp (points op' (List.getElem?_mem listed'))
  refine .inr ⟨fun mem => ?_, idle, pending.frame point' (frame key' ?_)⟩
  · rcases List.mem_append.mp mem with mem | mem
    · exact uncommitted mem
    · exact other (onlyI j mem)
  · rintro rfl
    exact Op.pointKey_ne distinct other listed listed' point point'

/-- An update's read changes neither the store nor what any client owes, and
leaves the reader pending on what it read. -/
theorem step_read (linear : s.Linear c e₀ ops committed) {op : Op} (listed : ops[i]? = some op)
    {key : List UInt8} (point : op.pointKey = some key) (found : s.clients[i]? = some ⟨call, []⟩)
    (fresh : i ∉ committed) (same : (call.step c s.handlers s.kv).kv = s.kv)
    (quiet : (call.step c s.handlers s.kv).notifications = [])
    (pending : Pending c s.kv op (call.step c s.handlers s.kv).call) :
    (s.step c i).Linear c e₀ ops committed := by
  have stepped := s.step_of_roundTrip (c := c) found
  have kept : (s.step c i).kv = s.kv := by rw [stepped, same]
  have log : (s.step c i).log = s.log := by rw [stepped]
  refine ⟨(s.step_handlers i).trans linear.handlers, kept.trans linear.kv,
    fun k j at' => linear.owed_of_fresh fresh log at', fun entry mem => linear.logged entry (log ▸ mem),
    fun j op' listed' => ?_, linear.nodup, (s.length_step_clients i).trans linear.length⟩
  rcases eq_or_ne j i with rfl | own
  · cases listed.symm.trans listed'
    exact ⟨_, step_clients_of_roundTrip found, .inr ⟨fresh, quiet, kept ▸ pending⟩⟩
  · simpa only [List.append_nil] using
      linear.others points distinct listed point (fun j (mem : j ∈ ([] : List Nat)) => nomatch mem)
        (fun k _ => by rw [kept]) own listed'

/-- A commit appends its client, with the effect of its operation run after
those committed before it. -/
theorem step_commit (linear : s.Linear c e₀ ops committed) {op : Op} (listed : ops[i]? = some op)
    {key : List UInt8} (point : op.pointKey = some key) (found : s.clients[i]? = some ⟨call, []⟩)
    (fresh : i ∉ committed) (finishes : (call.step c s.handlers s.kv).call.finished = true)
    (effect : ((call.step c s.handlers s.kv).kv, (call.step c s.handlers s.kv).notifications) =
      op.exec c ⟨s.kv, s.handlers⟩) :
    (s.step c i).Linear c e₀ ops (committed ++ [i]) := by
  have stepped := s.step_of_roundTrip (c := c) found
  have log : (s.step c i).log = s.log := by rw [stepped]
  have wrote : (call.step c s.handlers s.kv).kv = (op.exec c ⟨s.kv, s.handlers⟩).1 := congrArg Prod.fst effect
  have ran : (committed ++ [i]).filterMap (ops[·]?) = committed.filterMap (ops[·]?) ++ [op] := by
    simp [List.filterMap_append, listed]
  have unlogged : delivered s.log i = [] := by
    simp only [delivered, List.map_eq_nil_iff, List.filter_eq_nil_iff, decide_eq_true_eq]
    exact fun entry mem same => fresh (same ▸ linear.logged entry mem)
  refine ⟨(s.step_handlers i).trans linear.handlers, ?_, fun k j at' => ?_,
    fun entry mem => List.mem_append_left _ (linear.logged entry (log ▸ mem)), fun j op' listed' => ?_,
    linear.nodup.append (List.nodup_singleton i) (List.disjoint_singleton.mpr fresh),
    (s.length_step_clients i).trans linear.length⟩
  · rw [stepped, ran, Op.run_concat, wrote, ← linear.kv, ← linear.handlers]
  · by_cases old : k < committed.length
    · rw [List.getElem?_append_left old] at at'
      rw [List.take_append_of_le_length old.le]
      exact linear.owed_of_fresh fresh log at'
    · obtain rfl : k = committed.length := by
        have := (List.getElem?_eq_some_iff.mp at').1
        simp only [List.length_append, List.length_singleton] at this
        omega
      rw [List.getElem?_concat_length, Option.some_inj] at at'
      subst at'
      refine ⟨op, listed, ?_⟩
      rw [List.take_left' rfl, log, unlogged, List.nil_append, pendingOf_eq (step_clients_of_roundTrip found),
        ← linear.kv, ← linear.handlers]
      exact congrArg Prod.snd effect
  · rcases eq_or_ne j i with rfl | own
    · exact ⟨_, step_clients_of_roundTrip found,
        .inl ⟨List.mem_append_right _ (List.mem_singleton_self _), finishes⟩⟩
    · refine linear.others points distinct listed point (fun _ => List.eq_of_mem_singleton)
        (fun k other => ?_) own listed'
      rw [stepped]
      exact (congrArg (·.lookup k) wrote).trans (Op.exec_lookup_ne _ point other)

/-- Every step keeps the server linear. -/
theorem step (linear : s.Linear c e₀ ops committed) (i : Nat) :
    (s.step c i).Linear c e₀ ops (committed ++ if s.committing c i then [i] else []) := by
  cases found : s.clients[i]? with
  | none =>
      simpa only [Server.step, Server.committing, found, Bool.false_eq_true, if_false, List.append_nil]
        using linear
  | some client =>
      obtain ⟨call, pending⟩ := client
      obtain ⟨op, listed, state⟩ := linear.state found
      cases pending with
      | cons n rest =>
          have quiet : s.committing c i = false := by simp [Server.committing, found]
          rw [quiet, if_neg Bool.false_ne_true, List.append_nil]
          exact linear.step_dispatch found
      | nil =>
          rcases state with ⟨-, finished⟩ | ⟨fresh, -, pending⟩
          · have quiet : s.committing c i = false := by simp [Server.committing, found, finished]
            rw [quiet, if_neg Bool.false_ne_true, List.append_nil, s.step_of_finished found finished]
            exact linear
          obtain ⟨key, point⟩ := Option.ne_none_iff_exists'.mp (points op (List.getElem?_mem listed))
          obtain ⟨unfinished, ⟨same, quiet, open', pending'⟩ | ⟨finishes, effect⟩⟩ :=
            pending.step point s.handlers
          · have reading : s.committing c i = false := by
              simp [Server.committing, found, unfinished, open']
            rw [reading, if_neg Bool.false_ne_true, List.append_nil]
            exact linear.step_read points distinct listed point found fresh same quiet pending'
          · have commits : s.committing c i = true := by
              simp [Server.committing, found, unfinished, finishes]
            rw [commits, if_pos rfl]
            exact linear.step_commit points distinct listed point found fresh finishes effect

theorem run (linear : s.Linear c e₀ ops committed) (schedule : List Nat) :
    (s.run c schedule).Linear c e₀ ops (committed ++ s.commits c schedule) := by
  induction schedule generalizing s committed with
  | nil => simpa [Server.commits] using linear
  | cons i rest ih => simpa [Server.commits, List.append_assoc] using ih (linear.step points distinct i)

end

end Server.Linear

/-- Clients on distinct keys are linearizable at their commits. Let each client
issue an `Update…` or a `Delete…`, no two on the same key. Across every
interleaving of their round trips and handler calls, the store is that of the
committed calls run one after another in the order they committed. For the
`k`-th committed client, the handler calls made for it so far, followed by
those still pending, are exactly what its call makes when run after the first
`k`; no other handler call is made. Each client commits at most once, and the
committed clients are exactly those whose calls have finished. -/
theorem distinct_keys_linearizable (c : Codec V) (kv : Store V) (handlers : List EventHandler) (ops : List Op)
    (points : ∀ op ∈ ops, op.pointKey ≠ none) (distinct : (ops.map Op.pointKey).Nodup)
    (schedule : List Nat) :
    let s := (Server.issue kv handlers (ops.map Op.call)).run c schedule
    let committed := (Server.issue kv handlers (ops.map Op.call)).commits c schedule
    s.kv = (Op.run c ⟨kv, handlers⟩ (committed.filterMap (ops[·]?))).1 ∧
    (∀ k i, committed[k]? = some i → ∃ op, ops[i]? = some op ∧
      delivered s.log i ++ s.pendingOf i =
        (op.exec c ⟨(Op.run c ⟨kv, handlers⟩ ((committed.take k).filterMap (ops[·]?))).1, handlers⟩).2) ∧
    (∀ entry ∈ s.log, entry.1 ∈ committed) ∧ committed.Nodup ∧
    ∀ i, i ∈ committed ↔ ∃ client, s.clients[i]? = some client ∧ client.call.finished = true := by
  intro s committed
  have start : (Server.issue kv handlers (ops.map Op.call)).Linear c ⟨kv, handlers⟩ ops [] := by
    refine ⟨rfl, rfl, fun _ _ at' => by simp at at', fun _ mem => absurd mem (List.not_mem_nil _), fun i op listed => ⟨⟨op.call, []⟩, ?_,
      .inr ⟨List.not_mem_nil i, rfl, .inl rfl⟩⟩, List.nodup_nil, by simp [Server.issue]⟩
    simp [Server.issue, listed]
  have linear := start.run points distinct schedule
  rw [List.nil_append] at linear
  refine ⟨linear.kv, linear.owed, linear.logged, linear.nodup,
    fun i => ⟨fun mem => ?_, fun ⟨client, found, finished⟩ => ?_⟩⟩
  · obtain ⟨op, listed, -⟩ := linear.owed _ i (List.mem_iff_getElem?.mp mem).choose_spec
    obtain ⟨client, found, ⟨-, finished⟩ | ⟨unfinished, -⟩⟩ := linear.clients i op listed
    · exact ⟨client, found, finished⟩
    · exact absurd mem unfinished
  · obtain ⟨op, listed, ⟨mem, -⟩ | ⟨-, -, pending⟩⟩ := linear.state found
    · exact mem
    · obtain ⟨key, point⟩ := Option.ne_none_iff_exists'.mp (points op (List.getElem?_mem listed))
      rw [(pending.step point s.handlers).1] at finished
      cases finished

/-- Three clients on distinct keys: `UpdateStream(default/sw)`,
`UpdateGroup(default)` and `DeleteStream(default/cpu)`. -/
def threeClients : List Op :=
  [.update .background swInDefault, .update .background defaultGroupMessage,
    .deleteStream .background (some ⟨goString "default", goString "cpu", 0, 0, 0⟩)]

theorem distinct_keys_linearizable_threeClients :
    (∀ op ∈ threeClients, op.pointKey ≠ none) ∧ (threeClients.map Op.pointKey).Nodup ∧
    ((Server.issue Store.empty [⟨kindMask, 0⟩] (threeClients.map Op.call)).run Codec.identity
        [0, 1, 2, 0, 1, 0, 1]).kv =
      (Op.run Codec.identity ⟨Store.empty, [⟨kindMask, 0⟩]⟩
        (((Server.issue Store.empty [⟨kindMask, 0⟩] (threeClients.map Op.call)).commits Codec.identity
          [0, 1, 2, 0, 1, 0, 1]).filterMap (threeClients[·]?))).1 :=
  ⟨by decide, by decide, (distinct_keys_linearizable Codec.identity Store.empty [⟨kindMask, 0⟩] threeClients
    (by decide) (by decide) [0, 1, 2, 0, 1, 0, 1]).1⟩

end BanyanSchema
