import AccountSync.Proofs.Device.Calls
/-!
What calls make of the copies in memory and of the rows, without all that else goes on in a write.
A use of one copy is a plan: what becomes of the copy, and whether its row is written, refreshed or
left alone. Each call carries out the plans of its uses one after the other, and leaves what these
leave (`Write.leaves_edit`, `Write.leaves_follow`, `Write.leaves_receive`); whether it succeeds
depends on nothing else either.
-/

namespace AccountSync

open Step

/-- A slot holds one copy. -/
theorem Slot.ready_unique {slot : Option Slot} {r q : Replica} (hr : slot = some (.ready r))
    (hq : slot = some (.ready q)) : r = q :=
  Slot.ready.inj (Option.some.inj (hr.symm.trans hq))

/-- What a device holds: the copies in memory, and the database. -/
structure Held where
  copies : Copies
  database : Database

def Device.held (d : Device) : Held := ⟨d.copies, d.database⟩

/-- What a device would hold if its write ended now. -/
def Work.held (w : Work) : Held := ⟨w.device.copies, w.tx.database⟩

/-! ### Plans -/

/-- What becomes of the row of a copy. -/
inductive Keeping where
  | save (time : Int)
  | refresh (time : Int)
  | leave

/-- What a use makes of a copy, and what it does about the row. There is none if the use fails. -/
abbrev Plan := Replica → Option (Replica × Keeping)

namespace Keeping

def rows (db : Database) (key : CopyKey) (r : Replica) : Keeping → Option Database
  | save time =>
    (db.upsert ⟨key.topic, key.account, Standing.layout.put r.toStanding, time⟩).toOption
  | refresh time => (db.touch key.topic key.account time).toOption.map (·.2)
  | leave => some db

def copy (r : Replica) : Keeping → Replica
  | save _ => { r with unsaved := false }
  | refresh _ | leave => r

/-- The row is written if the copy was not saved since it changed. -/
def ofUnsaved (r : Replica) (time : Int) : Keeping := if r.unsaved then save time else leave

end Keeping

/-- A copy is saved if that is called for. -/
def Plan.keep (time : Int) : Plan := fun r => some (r, .ofUnsaved r time)

/-- Carries out a plan on a copy that is in use, among what is held otherwise. -/
def Plan.on (plan : Plan) (key : CopyKey) (r : Replica) (h : Held) : Option (Replica × Held) := do
  let (r, keeping) ← plan r
  let database ← keeping.rows h.database key r
  return (keeping.copy r, ⟨h.copies, database⟩)

/-- Carries out a plan on a copy, if that is loaded. -/
def Held.use (h : Held) (key : CopyKey) (plan : Plan) : Option Held :=
  match h.copies.find? key with
  | none => some h
  | some .broken => none
  | some (.ready r) =>
    (plan.on key r h).map fun (r, h) => ⟨h.copies.insert key (.ready r), h.database⟩

theorem Plan.on_some {plan : Plan} {key : CopyKey} {r r' : Replica} {k : Keeping} (h : Held)
    (hplan : plan r = some (r', k)) :
    plan.on key r h = (k.rows h.database key r').map fun db => (k.copy r', ⟨h.copies, db⟩) := by
  rw [on, hplan]
  cases hk : k.rows h.database key r' <;> simp [hk]

/-- A plan for a copy that is loaded decides what becomes of it and of its row. -/
theorem Held.use_ready {h : Held} {key : CopyKey} {plan : Plan} {r r' : Replica} {k : Keeping}
    (hr : h.copies.find? key = some (.ready r)) (hplan : plan r = some (r', k)) :
    h.use key plan = (k.rows h.database key r').map fun db =>
      ⟨h.copies.insert key (.ready (k.copy r')), db⟩ := by
  simp only [use, hr, Plan.on_some h hplan, Option.map_map]
  rfl

theorem Plan.on_none {plan : Plan} {key : CopyKey} {r : Replica} (h : Held)
    (hplan : plan r = none) : plan.on key r h = none := by
  rw [on, hplan]
  rfl

/-! ### Steps and what they leave -/

variable {α β : Type}

namespace Write

theorem changeStats_silent (f : Stats → Stats) : Silent Work.held (changeStats f) := fun _ => rfl

theorem schedule_silent (listener : Listener) (account : String) :
    Silent Work.held (schedule listener account) := fun _ => rfl

theorem rows_of_ok {f : Database → Except Failure (α × Database)} {w : Work} {a : α} {db : Database}
    (h : f w.tx.database = .ok (a, db)) :
    rows f w = (.ok a, { w with tx := { w.tx with database := db } }) := by
  simp only [rows, Transaction.onRows, h]
  rfl

theorem rows_of_error {f : Database → Except Failure (α × Database)} {w : Work} {e : Failure}
    (h : f w.tx.database = .error e) : rows f w = (.error (.failed e), w) := by
  simp only [rows, Transaction.onRows, h]
  rfl

theorem store_of_ok {d : Dump} {w : Work} {db : Database} (h : w.tx.database.upsert d = .ok db) :
    store d w = (.ok (), { w with tx := { w.tx with database := db } }) :=
  rows_of_ok (by simp only [h]; rfl)

theorem store_of_error {d : Dump} {w : Work} {e : Failure} (h : w.tx.database.upsert d = .error e) :
    store d w = (.error (.failed e), w) :=
  rows_of_error (by simp only [h]; rfl)

theorem leaves_rows (f : Database → Except Failure (α × Database)) (w : Work) :
    (rows f).leaves Work.held w =
      (f w.tx.database).toOption.map fun p => ⟨w.device.copies, p.2⟩ := by
  unfold leaves rows Transaction.onRows
  cases f w.tx.database <;> rfl

theorem leaves_store (d : Dump) (w : Work) :
    (store d).leaves Work.held w =
      (w.tx.database.upsert d).toOption.map fun db => ⟨w.device.copies, db⟩ := by
  rw [store, leaves_rows]
  cases w.tx.database.upsert d <;> rfl

end Write

/-! ### Uses of one copy -/

namespace Use

variable {x : Use β} {f : β → Use α}

/-- The copy in use, and what would be held otherwise if the write ended now. -/
def held (s : Replica × Work) : Replica × Held := (s.1, s.2.held)

theorem copy_silent : Silent held copy := fun _ => rfl

theorem outside_run {y : Write α} {result : Except Trouble α} {w w' : Work}
    (h : y w = (result, w')) (r : Replica) : outside y (r, w) = (result, (r, w')) := by
  simp only [outside, Step.within, h]

theorem leaves_outside (y : Write α) (r : Replica) (w : Work) :
    (outside y).leaves held (r, w) = (y.leaves Work.held w).map (r, ·) := by
  unfold leaves outside Step.within
  rcases y w with ⟨t | a, w'⟩ <;> rfl

theorem outside_silent {y : Write α} (hy : Silent Work.held y) : Silent held (outside y) := by
  rintro ⟨r, w⟩
  rw [leaves_outside, hy w]
  rfl

/-- A use carries out a plan. -/
def Carries (x : Use α) (key : CopyKey) (plan : Plan) : Prop :=
  ∀ r w, x.leaves held (r, w) = plan.on key r w.held

/-- The dump of a copy, if that is called for; the copy counts as saved then. -/
theorem dump?_run {c : Cipher} {limit : Nat} {env : Env} (henv : env.engine = .plain c limit)
    (key : CopyKey) (time : Int) (r : Replica) (w : Work) :
    dump? env key time (r, w) =
      (.ok (if r.unsaved then
          some ⟨key.topic, key.account, Standing.layout.put r.toStanding, time⟩ else none),
        ({ r with unsaved := false }, w)) := by
  have hcopy : copy (r, w) = (.ok r, (r, w)) := rfl
  rw [dump?, Step.bind_run_ok hcopy]
  cases hr : r.unsaved with
  | false =>
    have hsame : { r with unsaved := false } = r := by rw [← hr]
    rw [hsame]
    rfl
  | true =>
    have hsave : guarded key.topic "dump" env.engine.save (r, w) =
        (.ok (Standing.layout.put r.toStanding), ({ r with unsaved := false }, w)) := by
      rw [henv]
      rfl
    exact Step.bind_run_ok hsave

/-- To store a copy if that is called for. -/
theorem store?_carries {c : Cipher} {limit : Nat} {env : Env} (henv : env.engine = .plain c limit)
    (key : CopyKey) (time : Int) :
    (store? env key time).Carries key (.keep time) := by
  intro r w
  rw [Plan.on_some w.held rfl, Keeping.ofUnsaved, store?, leaves_bind (dump?_run henv key time r w)]
  cases hr : r.unsaved with
  | false =>
    have hsame : { r with unsaved := false } = r := by rw [← hr]
    rw [hsame]
    rfl
  | true =>
    simp only [if_true]
    rw [leaves_bind_silent fun _ => Silent.pure _, leaves_outside, Write.leaves_store,
      Option.map_map]
    rfl

/-- What comes silently after a use carries out no more. -/
theorem Carries.bind_silent {key : CopyKey} {plan : Plan} (hx : x.Carries key plan)
    (hf : ∀ b, Silent held (f b)) : (x >>= f).Carries key plan :=
  fun r w => (leaves_bind_silent hf (r, w)).trans (hx r w)

/-- A copy is changed, and then a plan is carried out on it. -/
theorem Carries.onCopy_bind {key : CopyKey} (plan : Plan) (g : Replica → β × Replica)
    (hf : ∀ b, (f b).Carries key plan) : (onCopy g >>= f).Carries key fun r => plan (g r).2 :=
  fun r w => hf (g r).1 (g r).2 w

end Use

/-! ### Parts of calls -/

namespace Write

/-- A use of a copy leaves what its plan leaves. -/
theorem leaves_use {key : CopyKey} {x : Use α} {plan : Plan} (hx : x.Carries key plan) (w : Work) :
    (use key x).leaves Work.held w = w.held.use key plan := by
  unfold leaves use Held.use
  cases hslot : w.device.copies.find? key with
  | none => simp only [Work.held, hslot]
  | some slot =>
    cases slot with
    | broken => simp only [Work.held, hslot]
    | ready copy =>
      have h := hx copy w
      unfold leaves Use.held at h
      simp only [Work.held, hslot]
      rw [Work.held] at h
      rw [← h]
      rcases x (copy, w) with ⟨⟨_ | _⟩ | _, r', w'⟩ <;> rfl

/-- A plan is carried out after the checkpoint. -/
theorem leaves_checkpoint {key : CopyKey} {x : Bool → Write α} {plan : Plan}
    (hmissing : Silent Work.held (x false))
    (hx : ∀ w, (x true).leaves Work.held w = w.held.use key plan) (w : Work) :
    (checkpoint key >>= x).leaves Work.held w = w.held.use key plan := by
  have hfound : ∀ w', w'.held = w.held → checkpoint key w = (.ok true, w') →
      (checkpoint key >>= x).leaves Work.held w = w.held.use key plan := by
    intro w' hheld hrun
    rw [leaves_bind hrun, hx w', hheld]
  cases hslot : w.device.copies.find? key with
  | none =>
    have hrun : checkpoint key w = (.ok false, w) := by simp only [checkpoint, hslot]
    rw [leaves_bind hrun, hmissing w, Held.use]
    simp only [Work.held, hslot]
  | some slot =>
    by_cases hhas : w.tx.undo.has (undoName key)
    · exact hfound w rfl (by simp only [checkpoint, hslot, if_pos hhas])
    · cases slot with
      | broken =>
        have hrun : checkpoint key w = (.error (.failed .unusable), w) := by
          simp only [checkpoint, hslot, if_neg hhas]
        rw [leaves_bind_error hrun, Held.use]
        simp only [Work.held, hslot]
      | ready copy =>
        let undo := (w.tx.undo.register (undoName key) ⟨key, copy⟩).2
        have hrun : checkpoint key w = (.ok true, ⟨w.device, { w.tx with undo }⟩) := by
          simp only [checkpoint, hslot, if_neg hhas]
          rfl
        exact hfound ⟨w.device, { w.tx with undo }⟩ rfl hrun

end Write

/-! ### Calls -/

section Calls

variable {c : Cipher} {limit : Nat} {env : Env}

/-- An edit, as a plan. -/
def Plan.edit (env : Env) (body : Replica → α × Replica) : Plan := fun r => keep env.now (body r).2

/-- A local change through a handler, as a plan. -/
def Plan.follow (env : Env) (topic : Topic) (change : Change) : Plan := fun r =>
  match (env.handler topic).applyLocal change r with
  | (.ok changed, r) => some (r, if changed then .ofUnsaved r env.now else .leave)
  | (.error _, _) => none

/-- The merge of a share, as a plan. -/
def Plan.share (c : Cipher) (env : Env) (key : CopyKey) (share : List Message) : Plan := fun r =>
  let (accepted, r) := r.merge c (Receive.batch share)
  if accepted = [] then some (r, .leave)
  else
    let latest := Receive.latest env share accepted
    match (env.handler key.topic).apply r ⟨key.account, r.unsaved, latest⟩ with
    | .ok () => some (r, if r.unsaved then .save latest else .refresh latest)
    | .error _ => none

theorem Write.leaves_edit (henv : env.engine = .plain c limit) (key : CopyKey)
    (body : Replica → α × Replica) (w : Work) :
    (edit env key body).leaves Work.held w = w.held.use key (.edit env body) := by
  refine leaves_checkpoint (Silent.pure none)
    (fun w => (leaves_bind_silent (fun edited => ?_) w).trans (leaves_use ?_ w)) w
  · cases edited with
    | none => exact Silent.pure none
    | some edited =>
      obtain ⟨a, needsPush⟩ := edited
      cases needsPush with
      | true => exact (schedule_silent _ _).bind fun _ => Silent.pure _
      | false => exact Silent.pure _
  · refine Use.Carries.onCopy_bind (.keep env.now) body fun a => ?_
    refine (Use.store?_carries henv key env.now).bind_silent fun stored => ?_
    cases stored with
    | true =>
      refine (Use.outside_silent (changeStats_silent _)).bind fun _ => ?_
      exact Use.copy_silent.bind fun _ => Silent.pure _
    | false => exact Use.copy_silent.bind fun _ => Silent.pure _

/-- What following one local write leaves. -/
def Held.follow (env : Env) (account : String) (write : LocalWrite) (h : Held) : Option Held :=
  match write.target? account with
  | none => some h
  | some (topic, change) => h.use ⟨account, topic⟩ (.follow env topic change)

theorem Use.follow_carries (henv : env.engine = .plain c limit) (key : CopyKey) (change : Change) :
    Use.Carries (do
      let changed ← Use.call ((env.handler key.topic).applyLocal change)
      let saved ← if changed then Use.store? env key env.now else pure false
      return (⟨changed, saved, (← Use.copy).needsPush⟩ : Followed))
      key (.follow env key.topic change) := by
  intro r w
  rcases happly : (env.handler key.topic).applyLocal change r with ⟨t | changed, r'⟩
  · have hrun : Use.call ((env.handler key.topic).applyLocal change) (r, w) =
        (.error t, (r', w)) := by
      simp only [Use.call, happly]
    rw [leaves_bind_error hrun, Plan.on_none]
    simp only [Plan.follow, happly]
  · have hrun : Use.call ((env.handler key.topic).applyLocal change) (r, w) =
        (.ok changed, (r', w)) := by
      simp only [Use.call, happly]
    have hplan : Plan.follow env key.topic change r =
        some (r', if changed then .ofUnsaved r' env.now else .leave) := by
      simp only [Plan.follow, happly]
    have hrest : ∀ saved : Bool, Silent Use.held (do
        return (⟨changed, saved, (← Use.copy).needsPush⟩ : Followed)) := fun saved =>
      Use.copy_silent.bind fun _ => Silent.pure _
    rw [leaves_bind hrun, Plan.on_some _ hplan]
    cases changed with
    | true =>
      have hstore := Use.store?_carries henv key env.now r' w
      rw [Plan.on_some _ rfl] at hstore
      exact (leaves_bind_silent hrest (r', w)).trans hstore
    | false => exact (leaves_bind_silent hrest (r', w)).trans rfl

theorem Write.leaves_followOne (henv : env.engine = .plain c limit) (account : String)
    (write : LocalWrite) (w : Work) :
    (followOne env account write).leaves Work.held w = w.held.follow env account write := by
  unfold followOne Held.follow
  cases write.target? account with
  | none => rfl
  | some target =>
    exact leaves_checkpoint (Silent.pure none)
      (fun w => leaves_use (Use.follow_carries henv ⟨account, target.1⟩ target.2) w) w

theorem Write.leaves_follow (henv : env.engine = .plain c limit) {account : String}
    (hid : env.identity = some account) (writes : List LocalWrite) (w : Work) :
    (follow env writes).leaves Work.held w =
      writes.foldlM (fun h write => h.follow env account write) w.held := by
  simp only [follow, hid]
  refine (leaves_bind_silent (fun followed => ?_) w).trans
    (leaves_each (fun write _ => leaves_followOne henv account write) w)
  split
  · refine (schedule_silent _ _).bind fun _ => ?_
    exact (changeStats_silent _).bind fun _ => Silent.pure _
  · exact (changeStats_silent _).bind fun _ => Silent.pure _

theorem Receive.keep_carries (henv : env.engine = .plain c limit) (key : CopyKey) (latest : Int) :
    (keep env key latest).Carries key fun r =>
      some (r, if r.unsaved then .save latest else .refresh latest) := by
  intro r w
  rw [Plan.on_some _ rfl]
  cases hr : r.unsaved with
  | true =>
    have hstore := Use.store?_carries henv key latest r w
    rw [Plan.on_some _ rfl, Keeping.ofUnsaved, hr] at hstore
    have hkeep : (keep env key latest).leaves Use.held (r, w) =
        (Use.store? env key latest >>= fun _ => pure ()).leaves Use.held (r, w) := by
      simp [keep, bind, Use.copy, hr, leaves]
    rw [hkeep, leaves_bind_silent fun _ => Silent.pure _, hstore]
    rfl
  | false =>
    have hkeep : (keep env key latest).leaves Use.held (r, w) =
        (Use.outside (Write.rows fun db => db.touch key.topic key.account latest) >>=
          fun _ => pure ()).leaves Use.held (r, w) := by
      simp [keep, bind, Use.copy, hr, leaves]
    rw [hkeep, leaves_bind_silent fun _ => Silent.pure _, Use.leaves_outside,
      Write.leaves_rows]
    cases h : w.tx.database.touch key.topic key.account latest <;>
      simp [Keeping.rows, Keeping.copy, Work.held, h, Except.toOption]

theorem Receive.tell_of_ok {key : CopyKey} {latest : Int} {r : Replica} (w : Work)
    (happly : (env.handler key.topic).apply r ⟨key.account, r.unsaved, latest⟩ = .ok ()) :
    ∃ w', tell env key latest (r, w) = (.ok (), (r, w')) ∧ w'.held = w.held := by
  let call : Applied :=
    ⟨(env.handler key.topic).name, key.topic, r.live, ⟨key.account, r.unsaved, latest⟩⟩
  refine ⟨{ w with device := { w.device with applied := w.device.applied ++ [call] } }, ?_, rfl⟩
  simp only [tell, bind, Use.copy, happly]
  rfl

theorem Receive.tell_of_error {key : CopyKey} {latest : Int} {r : Replica} {t : Trouble} (w : Work)
    (happly : (env.handler key.topic).apply r ⟨key.account, r.unsaved, latest⟩ = .error t) :
    ∃ t', tell env key latest (r, w) = (.error t', (r, w)) := by
  cases t with
  | failed f =>
    refine ⟨.failed (f.asHandler key.topic), ?_⟩
    simp only [tell, bind, Use.copy, happly]
    rfl
  | brokeOff text =>
    refine ⟨.brokeOff text, ?_⟩
    simp only [tell, bind, Use.copy, happly]
    rfl

theorem Receive.mergeShare_carries (henv : env.engine = .plain c limit) (key : CopyKey)
    (share : List Message) : (mergeShare env key share).Carries key (.share c env key share) := by
  intro r w
  obtain ⟨accepted, r', hmerge⟩ : ∃ accepted r', r.merge c (batch share) = (accepted, r') :=
    ⟨_, _, rfl⟩
  have hrun : Use.guarded key.topic "merge" (env.engine.merge (batch share)) (r, w) =
      (.ok accepted, (r', w)) := by
    simp only [Use.guarded, Use.call, henv, Engine.plain, hmerge]
    rfl
  rw [mergeShare, leaves_bind hrun]
  by_cases hacc : accepted = []
  · have hplan : Plan.share c env key share r = some (r', .leave) := by
      simp only [Plan.share, hmerge, if_pos hacc]
    rw [Plan.on_some _ hplan]
    simp only [if_pos hacc]
    exact Use.copy_silent.bind (fun _ => Silent.pure _) (r', w)
  simp only [if_neg hacc]
  have hcopy : Use.copy (r', w) = (.ok r', (r', w)) := rfl
  rw [leaves_bind hcopy]
  cases happly : (env.handler key.topic).apply r'
      ⟨key.account, r'.unsaved, latest env share accepted⟩ with
  | error t =>
    obtain ⟨t', htell⟩ := tell_of_error w happly
    have hplan : Plan.share c env key share r = none := by
      simp only [Plan.share, hmerge, if_neg hacc, happly]
    rw [leaves_bind_error htell, Plan.on_none _ hplan]
  | ok =>
    obtain ⟨w', htell, hheld⟩ := tell_of_ok w happly
    have hplan : Plan.share c env key share r =
        some (r', if r'.unsaved then .save (latest env share accepted)
          else .refresh (latest env share accepted)) := by
      simp only [Plan.share, hmerge, if_neg hacc, happly]
    have hkeep := keep_carries henv key (latest env share accepted) r' w'
    rw [Plan.on_some _ rfl] at hkeep
    rw [leaves_bind htell, leaves_bind_silent, hkeep, hheld, Plan.on_some _ hplan]
    exact fun _ => Use.copy_silent.bind fun _ => Silent.pure _

/-- What receiving messages leaves. -/
def Held.receive (c : Cipher) (env : Env) (account : String) (messages : List Message) (h : Held) :
    Option Held :=
  if account = "" then none
  else (Receive.shares messages).foldlM
    (fun h share => h.use ⟨account, share.1⟩ (.share c env ⟨account, share.1⟩ share.2)) h

theorem Write.leaves_receive (henv : env.engine = .plain c limit) (account : String)
    (messages : List Message) (w : Work) :
    (receive env account messages).leaves Work.held w = w.held.receive c env account messages := by
  unfold receive Held.receive
  split
  · exact leaves_bind_error rfl
  · refine (leaves_bind_silent (fun outcomes => ?_) w).trans (leaves_each (fun share _ w => ?_) w)
    · dsimp only
      split
      · refine (schedule_silent _ _).bind fun _ => ?_
        exact (changeStats_silent _).bind fun _ => Silent.pure _
      · exact (changeStats_silent _).bind fun _ => Silent.pure _
    · exact leaves_checkpoint (Silent.pure none)
        (fun w => leaves_use (Receive.mergeShare_carries henv ⟨account, share.1⟩ share.2) w) w

end Calls

end AccountSync
