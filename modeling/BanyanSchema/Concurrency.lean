import BanyanSchema.Registry

namespace BanyanSchema

/-! # Clients interleaved on one server

Each client runs one registry call. A call is a sequence of substrate round
trips: `update` reads, then puts or commits its transaction; a `Delete…` is one
delete; `DeleteGroup` reads the group, then deletes its range. The server
applies each round trip atomically, and a schedule picks which client makes
the next one. Here a commit makes its handler calls in the same step; the
`Server` of the dispatch module makes them after the write, one per step, and
its runs leave the store and every call as the runs here do.
-/

open Etcd

variable {V : Type}

/-- One client's registry call, between two round trips. A returned `update`
keeps the write it attempted. -/
inductive Call (V : Type) where
  | update (ctx : Context) (metadata : Metadata)
  | updating (ctx : Context) (metadata : Metadata) (plan : UpdatePlan V)
  | updated (metadata : Metadata) (plan : UpdatePlan V) (result : Except Error Unit)
  | delete (ctx : Context) (metadata : Metadata)
  | deleteGroup (ctx : Context) (group : List UInt8)
  | deletingGroup (ctx : Context) (group : List UInt8) (g : Message)
  | deleted (result : Except Error Bool)

def Call.issued : Call V → Bool
  | .update .. | .delete .. | .deleteGroup .. => true
  | _ => false

structure Stepped (V : Type) where
  call : Call V
  kv : Store V
  notifications : List Notification

/-- One round trip of a call. A commit also makes the call's handler calls in
the same step, as if `notifyUpdate` or `notifyDelete` ran under the write;
`Server.step` makes them one by one after the write, as etcd.go does. -/
def Call.step (c : Codec V) (handlers : List EventHandler) : Call V → Store V → Stepped V
  | .update ctx metadata, kv => ⟨.updating ctx metadata (updateRead c ctx metadata kv), kv, []⟩
  | .updating ctx metadata plan, kv =>
      let o := updateCommit handlers ctx metadata plan kv
      ⟨.updated metadata plan o.result, o.kv, o.notifications⟩
  | .delete ctx metadata, kv =>
      let o := BanyanSchema.delete c ⟨kv, handlers⟩ ctx metadata
      ⟨.deleted o.result, o.kv, o.notifications⟩
  | .deleteGroup ctx group, kv =>
      match getGroup c ctx group kv with
      | .error err => ⟨.deleted (.error (.wrap err group)), kv, []⟩
      | .ok g => ⟨.deletingGroup ctx group g, kv, []⟩
  | .deletingGroup ctx group g, kv =>
      let o := deleteGroupCommit handlers ctx group g kv
      ⟨.deleted o.result, o.kv, o.notifications⟩
  | call@(.updated ..), kv => ⟨call, kv, []⟩
  | call@(.deleted _), kv => ⟨call, kv, []⟩

theorem Call.step_transition (c : Codec V) (handlers : List EventHandler) (call : Call V)
    (kv : Store V) : Transition kv (call.step c handlers kv).kv := by
  cases call with
  | updating ctx metadata plan => exact updateCommit_transition handlers ctx metadata plan kv
  | delete ctx metadata => exact delete_transition c ⟨kv, handlers⟩ ctx metadata
  | deleteGroup ctx group =>
      simp only [Call.step]
      split <;> exact .stay kv
  | deletingGroup ctx group g => exact deleteGroupCommit_transition handlers ctx group g kv
  | _ => exact .stay kv

/-- The server, its handlers, every client's call, and the handler calls made
so far, each with the client that made it. -/
structure World (V : Type) where
  kv : Store V
  handlers : List EventHandler
  calls : List (Call V)
  log : List (Nat × Notification)

namespace World

def step (c : Codec V) (w : World V) (i : Nat) : World V :=
  match w.calls[i]? with
  | none => w
  | some call =>
      let stepped := call.step c w.handlers w.kv
      { w with
        kv := stepped.kv
        calls := w.calls.set i stepped.call
        log := w.log ++ stepped.notifications.map ((i, ·)) }

def run (c : Codec V) (w : World V) : List Nat → World V
  | [] => w
  | i :: rest => (w.step c i).run c rest

variable {c : Codec V}

@[simp] theorem run_nil (w : World V) : w.run c [] = w := rfl

@[simp] theorem run_cons (w : World V) (i : Nat) (rest : List Nat) :
    w.run c (i :: rest) = (w.step c i).run c rest := rfl

theorem step_of_call {w : World V} {i : Nat} {call : Call V} (found : w.calls[i]? = some call) :
    w.step c i =
      { w with
        kv := (call.step c w.handlers w.kv).kv
        calls := w.calls.set i (call.step c w.handlers w.kv).call
        log := w.log ++ (call.step c w.handlers w.kv).notifications.map ((i, ·)) } := by
  simp only [step, found]

@[simp] theorem step_handlers (w : World V) (i : Nat) : (w.step c i).handlers = w.handlers := by
  unfold step
  split <;> rfl

theorem step_transition (w : World V) (i : Nat) : Transition w.kv (w.step c i).kv := by
  unfold step
  split
  · exact .stay _
  · exact Call.step_transition c w.handlers _ w.kv

theorem step_calls_ne (w : World V) {i j : Nat} (other : j ≠ i) :
    (w.step c i).calls[j]? = w.calls[j]? := by
  unfold step
  split
  · rfl
  · exact List.getElem?_set_ne (Ne.symm other)

theorem step_calls_self {w : World V} {i : Nat} {call : Call V} (found : w.calls[i]? = some call) :
    (w.step c i).calls[i]? = some (call.step c w.handlers w.kv).call := by
  rw [step_of_call found]
  exact List.getElem?_set_self (List.getElem?_eq_some_iff.mp found).1

theorem step_calls {w : World V} {i : Nat} {call : Call V} (found : w.calls[i]? = some call)
    (j : Nat) :
    (w.step c i).calls[j]? = if j = i then some (call.step c w.handlers w.kv).call else w.calls[j]? := by
  split
  · subst j
    exact step_calls_self found
  · exact step_calls_ne w ‹_›

theorem run_calls_of_not_mem (w : World V) {i : Nat} {l : List Nat} (absent : i ∉ l) :
    (w.run c l).calls[i]? = w.calls[i]? := by
  induction l generalizing w with
  | nil => rfl
  | cons j rest ih =>
      simp only [List.mem_cons, not_or] at absent
      rw [run_cons, ih _ absent.2, step_calls_ne _ absent.1]

@[simp] theorem run_handlers (w : World V) (l : List Nat) : (w.run c l).handlers = w.handlers := by
  induction l generalizing w with
  | nil => rfl
  | cons j rest ih => rw [run_cons, ih, step_handlers]

theorem run_newerThan (w : World V) (l : List Nat) {key : List UInt8} {r : Int}
    (newer : w.kv.NewerThan key r) : (w.run c l).kv.NewerThan key r := by
  induction l generalizing w with
  | nil => exact newer
  | cons j rest ih => exact ih _ ((w.step_transition j).newerThan newer)

/-- Along a run, a key keeps the record `kv₀` to the end exactly when it keeps
it at every step: once changed, it holds only newer revisions. -/
theorem run_lookup_stable (w : World V) (l : List Nat) {key : List UInt8} {kv₀ : KeyValue V}
    (found : w.kv.lookup key = some kv₀) :
    (w.run c l).kv.lookup key = some kv₀ ↔
      ∀ j ≤ l.length, (w.run c (l.take j)).kv.lookup key = some kv₀ := by
  induction l generalizing w with
  | nil =>
      simp only [run_nil, List.length_nil, Nat.le_zero, forall_eq, List.take_zero, found]
  | cons i rest ih =>
      by_cases kept : (w.step c i).kv.lookup key = some kv₀
      · rw [run_cons, ih _ kept]
        constructor
        · intro later j bound
          cases j with
          | zero => exact found
          | succ j => exact later j (by simpa using bound)
        · intro always j bound
          simpa using always (j + 1) (by simpa using bound)
      · have newer := (w.step_transition i).newerThan_of_changed
          (w.kv.revisions_bounded found).2 (by rwa [found])
        have gone : ∀ l', ((w.step c i).run c l').kv.lookup key ≠ some kv₀ := fun l' same =>
          lt_irrefl _ (((w.step c i).run_newerThan l' newer).2 kv₀ same)
        simp only [run_cons, gone, false_iff, not_forall]
        exact ⟨1, by simp, by simpa using gone []⟩

theorem run_keeps_or_newer (w : World V) (l : List Nat) {key : List UInt8} {kv₀ : KeyValue V}
    (found : w.kv.lookup key = some kv₀) :
    (w.run c l).kv.lookup key = some kv₀ ∨ (w.run c l).kv.NewerThan key kv₀.modRevision := by
  induction l generalizing w with
  | nil => exact .inl found
  | cons i rest ih =>
      by_cases kept : (w.step c i).kv.lookup key = some kv₀
      · exact ih _ kept
      · exact .inr (run_newerThan _ rest ((w.step_transition i).newerThan_of_changed
          (w.kv.revisions_bounded found).2 (by rwa [found])))

/-- A replace-path `update` whose read saw revision `r`: its commit wins exactly
when the key kept, at every step since the read, the record the read saw; a
win stores its own value, a loss returns `ErrConcurrentModification` and
changes nothing. -/
theorem replace_commit (w : World V) {i : Nat} {ctx : Context} {metadata : Metadata}
    {key : List UInt8} {r : Int} {val : V} (mid : List Nat)
    (reading : w.calls[i]? = some (.update ctx metadata))
    (replace : updateRead c ctx metadata w.kv = .txn key r val) (others : i ∉ mid) :
    let before := (w.step c i).run c mid
    let after := before.step c i
    ((after.calls[i]? = some (.updated metadata (.txn key r val) (.ok ()))) ↔
      ∀ j ≤ mid.length, ((w.step c i).run c (mid.take j)).kv.lookup key = w.kv.lookup key) ∧
    ((after.calls[i]? = some (.updated metadata (.txn key r val) (.ok ())) ∧
        (after.kv.lookup key).map (·.value) = some val) ∨
      (after.calls[i]? =
          some (.updated metadata (.txn key r val) (.error .concurrentModification)) ∧
        after.kv = before.kv ∧ after.log = before.log)) := by
  intro before after
  obtain ⟨-, e, found, rfl⟩ := updateRead_txn replace
  have readKv : (w.step c i).kv = w.kv := by rw [step_of_call reading]; rfl
  have pending : before.calls[i]? = some (.updating ctx metadata (.txn key e.modRevision val)) := by
    rw [run_calls_of_not_mem _ others, step_calls_self reading]
    simp only [Call.step, replace]
  have commit := step_of_call (c := c) pending
  simp only [Call.step, updateCommit_txn] at commit
  have stable := (w.step c i).run_lookup_stable (c := c) mid (readKv ▸ found)
  rw [found]
  have live := (w.kv.revisions_bounded found).1
  by_cases swapped : before.kv.modRevisionOf key = e.modRevision
  · have kept : before.kv.lookup key = some e := by
      rcases (w.step c i).run_keeps_or_newer (c := c) mid (readKv ▸ found) with kept | newer
      · exact kept
      · exact absurd swapped (newer.modRevisionOf_ne live)
    have won : after.calls[i]? = some (.updated metadata (.txn key e.modRevision val) (.ok ())) := by
      show (before.step c i).calls[i]? = _
      rw [commit, if_pos swapped]
      exact List.getElem?_set_self (List.getElem?_eq_some_iff.mp pending).1
    refine ⟨⟨fun _ => stable.mp kept, fun _ => won⟩, .inl ⟨won, ?_⟩⟩
    show ((before.step c i).kv.lookup key).map (·.value) = some val
    rw [commit, if_pos swapped]
    simp
  · have lost : after.calls[i]? =
        some (.updated metadata (.txn key e.modRevision val) (.error .concurrentModification)) := by
      show (before.step c i).calls[i]? = _
      rw [commit, if_neg swapped]
      exact List.getElem?_set_self (List.getElem?_eq_some_iff.mp pending).1
    refine ⟨⟨fun won => ?_, fun always => ?_⟩, .inr ⟨lost, ?_, ?_⟩⟩
    · rw [lost] at won; cases won
    · exact absurd (by simp [Store.modRevisionOf, stable.mpr always]) swapped
    · show (before.step c i).kv = before.kv
      rw [commit, if_neg swapped]
    · show (before.step c i).log = before.log
      rw [commit, if_neg swapped]
      simp

end World

/-- What a call that made its round trips from issue looks like: a read
revision is live, and a returned compare-and-swap returned nil or lost. -/
def Call.Sound : Call V → Prop
  | .updating _ _ (.txn _ r _) => 0 < r
  | .updated _ (.txn _ r _) result =>
      0 < r ∧ (result = .ok () ∨ result = .error .concurrentModification)
  | _ => True

theorem Call.step_sound (c : Codec V) (handlers : List EventHandler) {call : Call V}
    (kv : Store V) (sound : call.Sound) : (call.step c handlers kv).call.Sound := by
  cases call with
  | update ctx metadata =>
      show (Call.updating ctx metadata (updateRead c ctx metadata kv)).Sound
      cases read : updateRead c ctx metadata kv with
      | txn key r val =>
          obtain ⟨_, e, found, rfl⟩ := updateRead_txn read
          exact (kv.revisions_bounded found).1
      | _ => trivial
  | updating ctx metadata plan =>
      cases plan with
      | txn key r val =>
          refine ⟨sound, ?_⟩
          show (updateCommit handlers ctx metadata (.txn key r val) kv).result = _ ∨ _
          rw [updateCommit_txn]
          split
          · exact .inl rfl
          · exact .inr rfl
      | _ => trivial
  | deleteGroup ctx group =>
      simp only [Call.step]
      split <;> trivial
  | updated => exact sound
  | _ => trivial

theorem Call.step_swapped {c : Codec V} {handlers : List EventHandler} {call : Call V}
    {kv : Store V} {metadata : Metadata} {key : List UInt8} {r : Int} {val : V}
    (stepped : (call.step c handlers kv).call = .updated metadata (.txn key r val) (.ok ())) :
    (call = .updated metadata (.txn key r val) (.ok ()) ∧ (call.step c handlers kv).kv = kv) ∨
    ((∃ ctx, call = .updating ctx metadata (.txn key r val)) ∧ kv.modRevisionOf key = r ∧
      (call.step c handlers kv).kv = kv.put key val) := by
  cases call with
  | updating ctx metadata' plan =>
      simp only [Call.step, Call.updated.injEq] at stepped
      obtain ⟨rfl, rfl, won⟩ := stepped
      rw [updateCommit_txn] at won
      split at won
      next swapped =>
        exact .inr ⟨⟨ctx, rfl⟩, swapped, by simp only [Call.step, updateCommit_txn, if_pos swapped]⟩
      next => cases won
  | updated => exact .inl ⟨stepped, rfl⟩
  | deleteGroup ctx group =>
      simp only [Call.step] at stepped
      split at stepped <;> cases stepped
  | _ => cases stepped

namespace World

variable {c : Codec V}

/-- Client `i` has returned nil from a compare-and-swap of `key` against
revision `r`. -/
def Swapped (w : World V) (key : List UInt8) (r : Int) (i : Nat) : Prop :=
  ∃ metadata val, w.calls[i]? = some (.updated metadata (.txn key r val) (.ok ()))

/-- At most one compare-and-swap against `r` has won, and after it the key
holds only newer revisions. -/
structure SwapInv (w : World V) (key : List UInt8) (r : Int) : Prop where
  sound : ∀ (i : Nat) (call : Call V), w.calls[i]? = some call → call.Sound
  unique : ∀ i j : Nat, w.Swapped key r i → w.Swapped key r j → i = j
  newer : ∀ i : Nat, w.Swapped key r i → w.kv.NewerThan key r

theorem SwapInv.issued {w : World V} {key : List UInt8} {r : Int}
    (issued : ∀ call ∈ w.calls, call.issued) : w.SwapInv key r := by
  have fresh : ∀ (i : Nat) (call : Call V), w.calls[i]? = some call → call.issued :=
    fun i call found => issued call (List.mem_iff_getElem?.mpr ⟨i, found⟩)
  refine ⟨fun i call found => ?_, fun i _ ⟨_, _, won⟩ => ?_, fun i ⟨_, _, won⟩ => ?_⟩
  · have := fresh i call found
    cases call <;> trivial
  · cases fresh i _ won
  · cases fresh i _ won

theorem SwapInv.step {w : World V} {key : List UInt8} {r : Int} (inv : w.SwapInv key r)
    (i : Nat) : (w.step c i).SwapInv key r := by
  cases found : w.calls[i]? with
  | none => simpa only [World.step, found] using inv
  | some call =>
      have sound : ∀ (j : Nat) (call' : Call V), (w.step c i).calls[j]? = some call' →
          call'.Sound := by
        intro j call' at'
        rw [step_calls found] at at'
        split at at'
        · cases at'
          exact Call.step_sound c _ _ (inv.sound i call found)
        · exact inv.sound j call' at'
      by_cases fresh : ∃ ctx metadata val, call = .updating ctx metadata (.txn key r val) ∧
          w.kv.modRevisionOf key = r
      · -- the winning compare-and-swap: no other call had won against `r`
        obtain ⟨ctx, metadata, val, rfl, swapped⟩ := fresh
        have none : ∀ j, ¬ w.Swapped key r j := fun j won =>
          (inv.newer j won).modRevisionOf_ne (inv.sound i _ found) swapped
        have swappedAt : ∀ j, (w.step c i).Swapped key r j → j = i := by
          rintro j ⟨m, v, won⟩
          rw [step_calls found] at won
          split at won
          · assumption
          · exact absurd ⟨m, v, won⟩ (none j)
        refine ⟨sound, fun j k wj wk => (swappedAt j wj).trans (swappedAt k wk).symm,
          fun _ _ => ?_⟩
        rw [step_of_call found]
        simp only [Call.step, updateCommit_txn, if_pos swapped]
        exact w.kv.put_newerThan key val (swapped ▸ w.kv.modRevisionOf_le_revision key)
      · -- any other step: a call that has won after it had won before it
        have before : ∀ j, (w.step c i).Swapped key r j → w.Swapped key r j := by
          rintro j ⟨m, v, won⟩
          rw [step_calls found] at won
          split at won
          · subst j
            rcases Call.step_swapped (Option.some_inj.mp won) with ⟨rfl, _⟩ |
              ⟨⟨ctx, rfl⟩, swapped, _⟩
            · exact ⟨m, v, found⟩
            · exact absurd ⟨ctx, m, v, rfl, swapped⟩ fresh
          · exact ⟨m, v, won⟩
        exact ⟨sound, fun j k wj wk => inv.unique j k (before j wj) (before k wk),
          fun j wj => (w.step_transition i).newerThan (inv.newer j (before j wj))⟩

theorem SwapInv.run {w : World V} {key : List UInt8} {r : Int} (inv : w.SwapInv key r)
    (l : List Nat) : (w.run c l).SwapInv key r := by
  induction l generalizing w with
  | nil => exact inv
  | cons i rest ih => exact ih (inv.step i)

end World

def raceStream (rest : List UInt8) : Databasev1.Stream :=
  ⟨some ⟨goString "default", goString "sw", 0, 0, 0⟩, rest⟩

def raceUpdate (rest : List UInt8) : Metadata :=
  { kind := .stream, group := goString "default", name := goString "sw",
    spec := some (.stream (raceStream rest)) }

def raceKey : List UInt8 := formatStreamKey (identity (goString "default") (goString "sw"))

/-- The stream `default/sw` stored, one handler interested in every kind, and
one client replacing it by a changed stream. -/
def replaceStream : World Message :=
  ⟨(updateStream Codec.identity ⟨Store.empty, []⟩ .background (raceStream [1])).kv, [⟨kindMask, 0⟩],
    [.update .background (raceUpdate [2])], []⟩

/-- Optimistic concurrency on the replace path, over every interleaving of
clients. A compare-and-swap commits exactly when no write or delete changed
its key since its read; then its value is stored as it is, and otherwise it
returns `ErrConcurrentModification`, writes nothing and notifies no one. Of
the calls that read one revision, at most one returns nil, and each of the
others that returned lost. -/
theorem update_optimistic_concurrency (c : Codec V) :
    (∀ (ctx : Context) (metadata : Metadata) (kv : Store V) (e : KeyValue V) (spec : Message)
        (val : V) (existing : Message),
      ctx.err = none → kv.lookup metadata.key = some e → metadata.spec = some spec →
      c.marshal spec = .ok val → c.unmarshal metadata.kind e.value = .ok existing → spec ≠ existing →
      updateRead c ctx metadata kv = .txn metadata.key e.modRevision val) ∧
    (∀ (w : World V) (i : Nat) (ctx : Context) (metadata : Metadata) (key : List UInt8)
        (r : Int) (val : V) (mid : List Nat),
      w.calls[i]? = some (.update ctx metadata) →
      updateRead c ctx metadata w.kv = .txn key r val → i ∉ mid →
      let before := (w.step c i).run c mid
      let after := before.step c i
      ((after.calls[i]? = some (.updated metadata (.txn key r val) (.ok ()))) ↔
        ∀ j ≤ mid.length, ((w.step c i).run c (mid.take j)).kv.lookup key = w.kv.lookup key) ∧
      ((after.calls[i]? = some (.updated metadata (.txn key r val) (.ok ())) ∧
          (after.kv.lookup key).map (·.value) = some val) ∨
        (after.calls[i]? =
            some (.updated metadata (.txn key r val) (.error .concurrentModification)) ∧
          after.kv = before.kv ∧ after.log = before.log))) ∧
    (∀ (w : World V) (schedule : List Nat) (key : List UInt8) (r : Int),
      (∀ call ∈ w.calls, call.issued) →
      (∀ i j, (w.run c schedule).Swapped key r i → (w.run c schedule).Swapped key r j → i = j) ∧
      ∀ (i : Nat) (metadata : Metadata) (val : V) (result : Except Error Unit),
        (w.run c schedule).calls[i]? = some (.updated metadata (.txn key r val) result) →
        result = .ok () ∨ result = .error .concurrentModification) :=
  ⟨fun _ _ _ _ _ _ _ live found given marshalled decoded differs => by
      simp [updateRead, Etcd.get, guarded, live, found, given, marshalled, decoded, differs,
        RangeResponse.count],
    fun w _ _ _ _ _ _ mid reading replace others => w.replace_commit mid reading replace others,
    fun _ schedule _ _ issued =>
      let inv := (World.SwapInv.issued issued).run schedule
      ⟨inv.unique, fun i _ _ _ found => (inv.sound i _ found).2⟩⟩

theorem update_optimistic_concurrency_replaceStream :
    replaceStream.calls[0]? = some (.update .background (raceUpdate [2])) ∧
    updateRead Codec.identity .background (raceUpdate [2]) replaceStream.kv =
      .txn raceKey 2 (.stream (raceStream [2])) ∧
    let before := (replaceStream.step Codec.identity 0).run Codec.identity []
    let after := before.step Codec.identity 0
    ((after.calls[0]? = some (.updated (raceUpdate [2]) (.txn raceKey 2 (.stream (raceStream [2]))) (.ok ()))) ↔
      ∀ j ≤ ([] : List Nat).length, ((replaceStream.step Codec.identity 0).run Codec.identity
        (([] : List Nat).take j)).kv.lookup raceKey = replaceStream.kv.lookup raceKey) ∧
    ((after.calls[0]? = some (.updated (raceUpdate [2]) (.txn raceKey 2 (.stream (raceStream [2]))) (.ok ())) ∧
        (after.kv.lookup raceKey).map (·.value) = some (.stream (raceStream [2]))) ∨
      (after.calls[0]? = some (.updated (raceUpdate [2]) (.txn raceKey 2 (.stream (raceStream [2])))
          (.error .concurrentModification)) ∧
        after.kv = before.kv ∧ after.log = before.log)) :=
  ⟨rfl, rfl, (update_optimistic_concurrency Codec.identity).2.1 replaceStream 0 .background (raceUpdate [2])
    raceKey 2 _ [] rfl rfl (List.not_mem_nil 0)⟩

namespace World

variable {c : Codec V}

/-- The insert branch puts without a check: once two updates of one key have
both read it absent, both commits return nil whatever runs between them, and
the key holds the value of the later put. -/
theorem first_insert_last_writer_wins (w : World V) {i j : Nat} {ctx₁ ctx₂ : Context}
    {metadata₁ metadata₂ : Metadata} {key : List UInt8} {val₁ val₂ : V} (mid : List Nat)
    (distinct : i ≠ j)
    (inserting₁ : w.calls[i]? = some (.updating ctx₁ metadata₁ (.put key val₁)))
    (inserting₂ : w.calls[j]? = some (.updating ctx₂ metadata₂ (.put key val₂)))
    (live₁ : ctx₁.err = none) (live₂ : ctx₂.err = none) (others₁ : i ∉ mid) (others₂ : j ∉ mid) :
    let after := ((w.step c i).run c mid).step c j
    after.calls[i]? = some (.updated metadata₁ (.put key val₁) (.ok ())) ∧
    after.calls[j]? = some (.updated metadata₂ (.put key val₂) (.ok ())) ∧
    (after.kv.lookup key).map (·.value) = some val₂ := by
  intro after
  have first : (w.step c i).calls[i]? = some (.updated metadata₁ (.put key val₁) (.ok ())) := by
    rw [step_calls_self inserting₁]
    simp only [Call.step, updateCommit_put _ live₁]
  have pending : ((w.step c i).run c mid).calls[j]? = some (.updating ctx₂ metadata₂ (.put key val₂)) := by
    rw [run_calls_of_not_mem _ others₂, step_calls_ne _ (Ne.symm distinct), inserting₂]
  have commit := step_of_call (c := c) pending
  simp only [Call.step, updateCommit_put _ live₂] at commit
  refine ⟨?_, ?_, ?_⟩
  · show (((w.step c i).run c mid).step c j).calls[i]? = _
    rw [step_calls_ne _ distinct, run_calls_of_not_mem _ others₁, first]
  · show (((w.step c i).run c mid).step c j).calls[j]? = _
    rw [step_calls_self pending]
    simp only [Call.step, updateCommit_put _ live₂]
  · show ((((w.step c i).run c mid).step c j).kv.lookup key).map (·.value) = _
    rw [commit]
    simp

end World

def raceWorld : World Message :=
  ⟨Store.empty, [], [.update .background (raceUpdate [1]), .update .background (raceUpdate [2])], []⟩

/-- Both reads see the key absent, so both updates put, both return nil, and
the first value is overwritten by a writer that never observed it. -/
theorem first_inserts_both_return_nil :
    let w := raceWorld.run Codec.identity [0, 1, 0, 1]
    w.calls[0]? = some (.updated (raceUpdate [1]) (.put raceKey (.stream (raceStream [1]))) (.ok ())) ∧
    w.calls[1]? = some (.updated (raceUpdate [2]) (.put raceKey (.stream (raceStream [2]))) (.ok ())) ∧
    (w.kv.lookup raceKey).map (·.value) = some (.stream (raceStream [2])) :=
  ⟨rfl, rfl, rfl⟩

theorem first_insert_last_writer_wins_race :
    let w := raceWorld.run Codec.identity [0, 1]
    w.calls[0]? = some (.updating .background (raceUpdate [1]) (.put raceKey (.stream (raceStream [1])))) ∧
    w.calls[1]? = some (.updating .background (raceUpdate [2]) (.put raceKey (.stream (raceStream [2])))) ∧
    let after := ((w.step Codec.identity 0).run Codec.identity []).step Codec.identity 1
    after.calls[0]? = some (.updated (raceUpdate [1]) (.put raceKey (.stream (raceStream [1]))) (.ok ())) ∧
    after.calls[1]? = some (.updated (raceUpdate [2]) (.put raceKey (.stream (raceStream [2]))) (.ok ())) ∧
    (after.kv.lookup raceKey).map (·.value) = some (.stream (raceStream [2])) :=
  ⟨rfl, rfl, World.first_insert_last_writer_wins _ [] (by decide) rfl rfl rfl rfl (by simp) (by simp)⟩

def defaultGroup : Commonv1.Group :=
  ⟨some ⟨[], goString "default", 0, 0, 0⟩, .stream, none, none⟩

/-- The group `default` stored, one handler interested in every kind, and two
clients deleting the group. -/
def twoGroupDeletes : World Message :=
  ⟨(updateGroup Codec.identity ⟨Store.empty, []⟩ .background defaultGroup).kv, [⟨kindMask, 0⟩],
    [.deleteGroup .background (goString "default"), .deleteGroup .background (goString "default")],
    []⟩

/-- Both clients read the group before either deletes it: the second range
delete removes nothing, yet both calls return `(true, nil)`. One notification
is fired. -/
theorem deleteGroup_both_return_true :
    (twoGroupDeletes.run Codec.identity [0, 1, 0, 1]).calls[0]? = some (.deleted (.ok true)) ∧
    (twoGroupDeletes.run Codec.identity [0, 1, 0, 1]).calls[1]? = some (.deleted (.ok true)) ∧
    (twoGroupDeletes.run Codec.identity [0, 1, 0]).kv.revision =
      (twoGroupDeletes.run Codec.identity [0, 1, 0, 1]).kv.revision ∧
    (twoGroupDeletes.run Codec.identity [0, 1, 0, 1]).log.length = 1 :=
  ⟨rfl, rfl, rfl, rfl⟩

end BanyanSchema
