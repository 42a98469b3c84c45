import AccountSync.Proofs.Device.Notes
import AccountSync.Proofs.Device.Numbering
import AccountSync.Proofs.Device.Pass
/-!
Messages that are collected while a write is open. They tell what the copies hold in memory, so what
they tell of a copy that the write has noted may not be committed; and a write that rolls back gives
such a copy its number back, although messages were handed out under it. These are the only messages
that are taken back (`Stage.handed_out_stands`).
-/

namespace AccountSync

open Step (Keeps)

variable {c : Cipher} {limit : Nat} {env : Env} {account : String}

/-- A handler that sets and erases entries, whatever it answers. -/
def Handler.Sets (h : Handler) : Prop :=
  ∀ change r, ∃ changes, (h.applyLocal change r).2 = (r.changeAll changes).2

theorem Handler.sets_silent : Handler.silent.Sets := fun change _ => ⟨[change], rfl⟩

/-! ### Stages -/

/-- A device between writes, or within a write that has begun on another. -/
inductive Stage where
  | idle (d : Device)
  | within (begun : Device) (w : Work)

/-- A deed within a write that may go on if it fails. -/
def Deed.attempt (env : Env) (account : String) (deed : Deed) :
    Write (Except Failure (Reply (List Bool))) :=
  ((deed.call account).run env).attempt

namespace Stage

/-- What may happen to a device. Messages are collected within the open write, or beside it. -/
inductive Event where
  | start
  | call (env : Env) (account : String) (deed : Deed)
  | collect (beside : Bool) (env : Env) (account : String)
  | commit
  | rollback

/-- The device on which the open write has begun; the device itself if none is open. -/
def begun : Stage → Device
  | idle d => d
  | within begun _ => begun

/-- The work of the open write. If none is open, it is that of one that starts now. -/
def work : Stage → Work
  | idle d => d.start
  | within _ w => w

/-- The copies in memory. -/
def copies (s : Stage) : Copies := s.work.device.copies

/-- The stage with another device in memory. -/
def holding (d : Device) : Stage → Stage
  | idle _ => idle d
  | within begun w => within begun { w with device := d }

/-- Collects messages, with the rows that are seen within the open write or beside it. -/
def collect (s : Stage) (beside : Bool) (env : Env) (account : String) :
    Except Trouble (List Outgoing) × Stage :=
  let seen := if beside then s.work.device.start else s.work
  let (result, w) := Write.collect env account seen
  (result, s.holding w.device)

/-- The messages that a collection hands out: all of them, or none if it fails. -/
def handsOut (s : Stage) (beside : Bool) (env : Env) (account : String) : List Outgoing :=
  (s.collect beside env account).1.toOption.getD []

/-- Opens a write. There is one at a time. -/
def start : Stage → Stage
  | idle d => within d d.start
  | within begun w => within begun w

/-- Makes a call, if a write is open. -/
def call (env : Env) (account : String) (deed : Deed) : Stage → Stage
  | idle d => idle d
  | within begun w => within begun (deed.attempt env account w).2

/-- Ends the open write. -/
def finish (how : Close) : Stage → Stage
  | idle d => idle d
  | within _ w => idle (w.finish how)

/-- The next stage. -/
def step (s : Stage) : Event → Stage
  | .start => s.start
  | .call env account deed => s.call env account deed
  | .collect beside env account => (s.collect beside env account).2
  | .commit => s.finish .commit
  | .rollback => s.finish .rollback

/-- The stage after several events. -/
def run (s : Stage) (events : List Event) : Stage := events.foldl step s

/-- An event in supplied surroundings: no call breaks off, and where messages are collected all
copies can be written down. -/
def Proper (c : Cipher) (limit : Nat) (s : Stage) : Event → Prop
  | .start | .commit | .rollback => True
  | .call env account deed => env.engine = .plain c limit ∧ (∀ topic, (env.handler topic).Sets) ∧
      (deed.attempt env account s.work).1.isOk = true
  | .collect _ env _ => env.Supplied c limit ∧ s.copies.Fit

/-- All events are proper. -/
def ProperAll (c : Cipher) (limit : Nat) : Stage → List Event → Prop
  | _, [] => True
  | s, e :: events => s.Proper c limit e ∧ (s.step e).ProperAll c limit events

/-- The write that is open is rolled back: of the events that end a write the first does so. -/
def Revoked : List Event → Prop
  | [] | .commit :: _ => False
  | .rollback :: _ => True
  | .start :: events | .call _ _ _ :: events | .collect _ _ _ :: events => Revoked events

theorem properAll_append : ∀ {events others : List Event} {s : Stage},
    s.ProperAll c limit (events ++ others) ↔
      s.ProperAll c limit events ∧ (s.run events).ProperAll c limit others
  | [], _, _ => (and_iff_right trivial).symm
  | _ :: _, _, _ => (and_congr_right fun _ => properAll_append).trans and_assoc.symm

theorem run_append (s : Stage) (events others : List Event) :
    s.run (events ++ others) = (s.run events).run others := List.foldl_append

variable {s : Stage} {e : Event} {beside : Bool} {key : CopyKey}

/-! ### Steps -/

/-- What each call in a write keeps, unless it breaks off, a proper one keeps. -/
theorem keeps_call {P : Work → Prop} {deed : Deed}
    (hp : s.Proper c limit (.call env account deed)) (hcall : Keeps P ((deed.call account).run env))
    (h : P s.work) : P (deed.attempt env account s.work).2 := by
  have hkeeps := hcall.attempt s.work h
  rcases hrun : deed.attempt env account s.work with ⟨t | reply, w⟩
  · have hok := hp.2.2
    rw [hrun] at hok
    cases hok
  · have hrun' : ((deed.call account).run env).attempt s.work = (.ok reply, w) := hrun
    rw [hrun'] at hkeeps
    exact hkeeps

/-- A collection notes nothing. -/
theorem undo_collect (s : Stage) (beside : Bool) (env : Env) (account : String) :
    (s.collect beside env account).2.work.tx.undo = s.work.tx.undo := by
  cases s <;> rfl

/-- A collection fails and leaves the copies as they are, or it goes through distinct topics. -/
theorem collect_cases (henv : env.engine = .plain c limit) (s : Stage) (beside : Bool)
    (account : String) :
    (∀ os, (s.collect beside env account).1 ≠ .ok os) ∧
        (s.collect beside env account).2.copies = s.copies ∨
      ∃ topics, topics.Nodup ∧ Collected c env account topics s.copies
        (s.collect beside env account).1 (s.collect beside env account).2.copies := by
  obtain ⟨seen, hseen⟩ : ∃ seen, (if beside then s.work.device.start else s.work) = seen := ⟨_, rfl⟩
  have hcopies : seen.device.copies = s.copies := by
    rw [← hseen]
    cases beside <;> rfl
  obtain ⟨result, w, hrun, -, hcases⟩ := Write.collect_runs henv account seen
  have hcollect : s.collect beside env account = (result, s.holding w.device) := by
    simp only [collect, hseen, hrun]
  have hholding : (s.holding w.device).copies = w.device.copies := by cases s <;> rfl
  rw [hcollect, hholding, ← hcopies]
  rcases hcases with ⟨-, ⟨f, rfl⟩, hsame⟩ | ⟨identity, dumped, -, hdumped, hcollected⟩
  · exact .inl ⟨fun os hok => (by cases hok), hsame⟩
  · exact .inr ⟨_, Write.nodup_publishedTopics hdumped, hcollected⟩

/-- A collection pushes copies, and leaves the others. -/
theorem kept_collect (henv : env.engine = .plain c limit) (s : Stage) (beside : Bool)
    (account : String) (key : CopyKey) :
    Slot.Kept c env (s.copies.find? key) ((s.collect beside env account).2.copies.find? key) := by
  rcases collect_cases henv s beside account with ⟨-, hsame⟩ | ⟨topics, hn, hcollected⟩
  · exact .inl (congrArg (·.find? key) hsame)
  · exact hcollected.kept hn key

/-- A message that is handed out tells what the copy of its topic holds, and the number of the copy
is spent on that. -/
theorem tells_of_handsOut (hc : c.Faithful) (henv : env.Supplied c limit) (hfits : s.copies.Fit)
    {o : Outgoing} (ho : o ∈ s.handsOut beside env account) :
    ∃ r r', s.copies.find? ⟨account, o.message.topic⟩ = some (.ready r) ∧ r.needsPush = true ∧
      o.message.Tells c r ∧ (s.collect beside env account).2.copies.find?
        ⟨account, o.message.topic⟩ = some (.ready r') ∧ r'.Spent r.seq r.entries := by
  unfold handsOut at ho
  cases hresult : (s.collect beside env account).1 with
  | error t =>
    rw [hresult] at ho
    exact absurd ho List.not_mem_nil
  | ok os =>
    rw [hresult] at ho
    rcases collect_cases henv.engine s beside account with ⟨hnot, -⟩ | ⟨topics, hn, hcollected⟩
    · exact absurd hresult (hnot os)
    obtain ⟨r, n, push, hr, hneeds, hpush, hout, hr'⟩ := ((hcollected.sends hn hresult).1 o ho).2
    refine ⟨r, _, hr, hneeds, ?_, hr', Replica.spent_of_push hneeds hpush⟩
    exact Message.tells_of_push hc (hfits _ r hr) (henv.nonces n) hpush hout rfl rfl

end Stage

/-! ### Numbers -/

variable {key : CopyKey} {n : Int} {m : Entries} {firm : Prop}

/-- A number of a copy is spent on entries; in the notes of the copy, too, if the work is firm. -/
structure Work.Remembers (key : CopyKey) (n : Int) (m : Entries) (firm : Prop) (w : Work) :
    Prop where
  named : w.Named
  copy : ∀ r, w.device.copies.find? key = some (.ready r) → r.Spent n m
  notes : firm → ∀ u ∈ w.tx.undo.actions, u.key = key → u.copy.Spent n m

/-- Any deed keeps of a copy what stays true when numbers are used up. -/
theorem Deed.spares {Q : CopyKey → Replica → Prop}
    (hQ : ∀ key r r', r.Advances r' → Q key r → Q key r') (henv : env.engine = .plain c limit)
    (hsets : ∀ topic, (env.handler topic).Sets) (account : String) (deed : Deed) :
    (deed.call account).Spares Q env := by
  refine ⟨fun key r => hQ key r _ ?_, ?_⟩
  · rw [henv]
    exact Replica.advances_of_eq rfl rfl rfl
  cases deed with
  | edit topic changes => exact fun r => hQ _ r _ (Replica.advances_changeAll changes r)
  | receive messages =>
    intro key batch r
    rw [henv]
    exact hQ key r _ (Replica.advances_merge c r batch)
  | follow writes =>
    intro key change r
    obtain ⟨changes, hchanges⟩ := hsets key.topic change r
    rw [hchanges]
    exact hQ key r _ (Replica.advances_changeAll changes r)

namespace Work.Remembers

variable {w w' : Work}

/-- A write that has noted nothing yet is firm. -/
theorem of_no_notes (hundo : w.tx.undo.list = [])
    (hcopy : ∀ r, w.device.copies.find? key = some (.ready r) → r.Spent n m) :
    w.Remembers key n m firm :=
  ⟨by simp [Named, hundo], hcopy, fun _ u hu => by simp [Hooks.actions, hundo] at hu⟩

theorem guarded (key : CopyKey) (n : Int) (m : Entries) (firm : Prop) :
    Guarded (fun k r => k = key → r.Spent n m) (Work.Remembers key n m firm) where
  named h := h.named
  ready h hslot := by
    rintro rfl
    exact h.copy _ hslot
  frame h hw := by
    obtain ⟨hcopies, -, -, hundo⟩ := Work.frame_eq hw
    exact ⟨fun p hp => h.named p (hundo ▸ hp), fun r hr => h.copy r (hcopies ▸ hr),
      fun hfirm u hu => h.notes hfirm u (hundo ▸ hu)⟩
  note h hslot _ := by
    refine ⟨Named.note h.named _ _, h.copy, fun hfirm u hu hkey => ?_⟩
    rcases mem_actions_note.1 hu with hu | rfl
    · exact h.notes hfirm u hu hkey
    · subst hkey
      exact h.copy _ hslot
  settle {w k q r} h _ _ hr := by
    refine ⟨h.named, fun r' hr' => ?_, h.notes⟩
    by_cases hkey : key = k
    · subst hkey
      obtain rfl : r = r' := Slot.ready_unique (SortedMap.find?_insert_self _ _ _) hr'
      exact hr rfl
    · exact h.copy r' ((SortedMap.find?_insert_of_ne hkey).symm.trans hr')

/-- Copies that are pushed use numbers up. -/
theorem of_kept (h : w.Remembers key n m firm) (hundo : w'.tx.undo = w.tx.undo)
    (hkept : ∀ k, Slot.Kept c env (w.device.copies.find? k) (w'.device.copies.find? k)) :
    w'.Remembers key n m firm := by
  refine ⟨fun p hp => h.named p (hundo ▸ hp), fun r hr => ?_,
    fun hfirm u hu => h.notes hfirm u (hundo ▸ hu)⟩
  rcases hkept key with hsame | ⟨q, i, hq, -, hpushed⟩
  · exact h.copy r (hsame ▸ hr)
  · obtain rfl := Slot.ready_unique hpushed hr
    exact Replica.advances_push c _ q n m (h.copy q hq)

/-- What is put back of a copy has the number spent. -/
theorem rollback (h : w.Remembers key n m firm) (hfirm : firm) {r : Replica}
    (hr : (w.finish .rollback).copies.find? key = some (.ready r)) : r.Spent n m := by
  rcases Undo.find?_foldl_run key w.tx.undo.actions.reverse w.device.copies with
    ⟨hsame, -⟩ | ⟨u, hu, q, hkey, -, hput⟩
  · exact h.copy r (hsame.symm.trans hr)
  · obtain rfl : u.copy = r := Slot.ready_unique hput hr
    exact h.notes hfirm u (List.mem_reverse.1 hu) hkey

end Work.Remembers

namespace Stage

variable {s : Stage} {e : Event} {beside : Bool}

theorem remembers_idle {d : Device}
    (h : ∀ r, d.copies.find? key = some (.ready r) → r.Spent n m) :
    (idle d).work.Remembers key n m firm := .of_no_notes rfl h

/-- Numbers that are spent stay so, unless a write is rolled back that is not firm. -/
theorem remembers_step (hp : s.Proper c limit e) (h : s.work.Remembers key n m firm)
    (hfirm : firm ∨ e ≠ .rollback) : (s.step e).work.Remembers key n m firm := by
  cases e with
  | start => cases s <;> exact h
  | call env account deed =>
    cases s with
    | idle d => exact h
    | within begun w =>
      have hQ : ∀ k (r r' : Replica), r.Advances r' → (k = key → r.Spent n m) →
          k = key → r'.Spent n m := fun k r r' hr' hr hk => hr' n m (hr hk)
      have hspares := Deed.spares hQ hp.1 hp.2.1 account deed
      exact keeps_call hp (Call.guarded (Work.Remembers.guarded key n m firm) hspares) h
  | collect beside env account =>
    exact h.of_kept (undo_collect s beside env account)
      (kept_collect hp.1.engine s beside account)
  | commit =>
    cases s with
    | idle d => exact h
    | within begun w => exact remembers_idle h.copy
  | rollback =>
    cases s with
    | idle d => exact h
    | within begun w =>
      exact remembers_idle fun r hr => h.rollback (hfirm.resolve_right fun hne => hne rfl) hr

/-- A number that is spent stays so. If notes of its copy may be older, this is as long as the open
write is not rolled back. -/
theorem spent_of_run {events : List Event} (hp : s.ProperAll c limit events)
    (h : s.work.Remembers key n m firm) (hfirm : firm ∨ ¬ Revoked events) {r : Replica}
    (hr : (s.run events).copies.find? key = some (.ready r)) : r.Spent n m := by
  induction events generalizing s firm with
  | nil => exact h.copy r hr
  | cons e events ih =>
    have hstep := remembers_step hp.1 h
    cases e with
    | start | call | collect => exact ih hp.2 (hstep (.inr Event.noConfusion)) hfirm hr
    | rollback =>
      have hfirm : firm := hfirm.resolve_right fun hnot => hnot trivial
      exact ih hp.2 (hstep (.inl hfirm)) (.inl hfirm) hr
    | commit =>
      -- The notes are gone with the write, so what comes next is firm.
      have hcopy := (hstep (.inr Event.noConfusion)).copy
      have hnext : (s.step .commit).work.Remembers key n m True := by
        cases s <;> exact remembers_idle hcopy
      exact ih hp.2 hnext (.inl trivial) hr

end Stage

/-! ### What is committed -/

/-- What a copy that can be used holds. -/
def Copies.generation? (cs : Copies) (key : CopyKey) : Option Generation :=
  match cs.find? key with
  | some (.ready r) => some r.generation
  | _ => none

theorem Copies.generation?_of_ready {cs : Copies} {r : Replica}
    (h : cs.find? key = some (.ready r)) : cs.generation? key = some r.generation := by
  simp only [generation?, h]

theorem Copies.generation?_congr {cs cs' : Copies} (h : cs'.find? key = cs.find? key) :
    cs'.generation? key = cs.generation? key := by
  simp only [generation?, h]

/-- A push does not change what a copy holds. -/
theorem Slot.Kept.generation? {cs cs' : Copies}
    (h : Slot.Kept c env (cs.find? key) (cs'.find? key)) :
    cs'.generation? key = cs.generation? key := by
  rcases h with hsame | ⟨r, i, hr, hneeds, hr'⟩
  · exact Copies.generation?_congr hsame
  · rw [Copies.generation?_of_ready hr, Copies.generation?_of_ready hr']
    have hpushed := Replica.push_pushed c (env.nonce i) r
    have hfixed := Replica.push_fixed c (env.nonce i) r
    generalize r.push c (env.nonce i) = x at hpushed hfixed ⊢
    cases hpushed with
    | refused => rfl
    | made r' _ _ _ _ _ hseq hentries =>
      exact congrArg some (Replica.generation_congr hfixed hseq hentries)

/-- The work of a write that began on a device: what a copy holds that was not noted it held then,
and what was noted of a copy is what it held then. -/
structure Work.Stems (begun : Device) (w : Work) : Prop where
  named : w.Named
  unnoted : ∀ key, Noted key w ∨ w.device.copies.generation? key = begun.copies.generation? key
  noted : ∀ u ∈ w.tx.undo.actions, begun.copies.generation? u.key = some u.copy.generation ∧
    (w.device.copies.generation? u.key).isSome

namespace Work.Stems

variable {begun : Device} {w w' : Work}

theorem start (d : Device) : d.start.Stems d :=
  ⟨by simp [Named, Device.start], fun _ => .inr rfl, by simp [Device.start, Hooks.actions]⟩

/-- The work stems from the same device as long as each copy holds what it did. -/
theorem congr (h : w.Stems begun) (hundo : w'.tx.undo = w.tx.undo)
    (hsame : ∀ k, w'.device.copies.generation? k = w.device.copies.generation? k) :
    w'.Stems begun := by
  refine ⟨fun p hp => h.named p (hundo ▸ hp), fun k => ?_, fun u hu => ?_⟩
  · rw [Noted, hundo, hsame k]
    exact h.unnoted k
  · rw [hsame u.key]
    exact h.noted u (hundo ▸ hu)

theorem guarded (begun : Device) : Guarded (fun _ _ => True) (Work.Stems begun) where
  named h := h.named
  ready _ _ := trivial
  frame h hw := by
    obtain ⟨hcopies, -, -, hundo⟩ := Work.frame_eq hw
    exact h.congr hundo fun k => by rw [hcopies]
  note {w k r} h hslot hnot := by
    have hready := Copies.generation?_of_ready hslot
    refine ⟨Named.note h.named k r, fun k' => ?_, fun u hu => ?_⟩
    · exact (h.unnoted k').imp_left fun ⟨u, hu, hkey⟩ => ⟨u, mem_actions_note.2 (.inl hu), hkey⟩
    · rcases mem_actions_note.1 hu with hu | rfl
      · exact h.noted u hu
      · have hsome : (w.device.copies.generation? k).isSome := by
          rw [hready]
          rfl
        exact ⟨((h.unnoted k).resolve_left hnot).symm.trans hready, hsome⟩
  settle {w k q r} h hn hslot _ := by
    have hframe : ∀ k' ≠ k, (Write.settle w k (.ready r)).device.copies.generation? k' =
        w.device.copies.generation? k' := fun k' hne =>
      Copies.generation?_congr (SortedMap.find?_insert_of_ne hne)
    have hput : (Write.settle w k (.ready r)).device.copies.find? k = some (.ready r) :=
      SortedMap.find?_insert_self _ _ _
    refine ⟨h.named, fun k' => ?_, fun u hu => ⟨(h.noted u hu).1, ?_⟩⟩
    · by_cases hkey : k' = k
      · exact .inl (hkey ▸ hn)
      · rw [hframe k' hkey]
        exact h.unnoted k'
    · by_cases hkey : u.key = k
      · rw [hkey, Copies.generation?_of_ready hput]
        rfl
      · rw [hframe u.key hkey]
        exact (h.noted u hu).2

/-- After a rollback each copy holds what it held when the write began. -/
theorem rollback (h : w.Stems begun) (key : CopyKey) :
    (w.finish .rollback).copies.generation? key = begun.copies.generation? key := by
  rcases Undo.find?_foldl_run key w.tx.undo.actions.reverse w.device.copies with
    ⟨hsame, hnone⟩ | ⟨u, hu, q, rfl, -, hput⟩
  · refine (Copies.generation?_congr hsame).trans ((h.unnoted key).resolve_left ?_)
    rintro ⟨u, hu, rfl⟩
    have hsome := (h.noted u hu).2
    unfold Copies.generation? at hsome
    split at hsome
    · rename_i q hq
      exact hnone u (List.mem_reverse.2 hu) rfl q hq
    · cases hsome
  · exact (Copies.generation?_of_ready hput).trans (h.noted u (List.mem_reverse.1 hu)).1.symm

end Work.Stems

namespace Stage

variable {s : Stage} {e : Event} {beside : Bool}

theorem stems_step (hp : s.Proper c limit e) (h : s.work.Stems s.begun) :
    (s.step e).work.Stems (s.step e).begun := by
  cases s with
  | idle d =>
    cases e with
    | start | call | commit | rollback => exact h
    | collect => exact .start _
  | within begun w =>
    cases e with
    | start => exact h
    | commit | rollback => exact .start _
    | collect beside env account =>
      exact h.congr (undo_collect _ beside env account) fun k =>
        (kept_collect hp.1.engine _ beside account k).generation?
    | call env account deed =>
      have hspares := Call.spares_of_forall (fun _ _ => trivial) env (deed.call account)
      exact keeps_call hp (Call.guarded (Work.Stems.guarded begun) hspares) h

/-- Nothing but a commit changes what is committed. -/
theorem begun_step (hp : s.Proper c limit e) (h : s.work.Stems s.begun) (hne : e ≠ .commit)
    (key : CopyKey) :
    (s.step e).begun.copies.generation? key = s.begun.copies.generation? key := by
  cases e with
  | start | call => cases s <;> rfl
  | commit => exact absurd rfl hne
  | collect beside env account =>
    cases s with
    | idle d => exact (kept_collect hp.1.engine (idle d) beside account key).generation?
    | within => rfl
  | rollback =>
    cases s with
    | idle => rfl
    | within begun w => exact h.rollback key

/-- The copy held this at first, or right after a write that has committed. -/
def Committed (s : Stage) (events : List Event) (key : CopyKey) (g : Generation) : Prop :=
  ∃ part, part <+: events ∧
    (part = [] ∨ ∃ before begun w, part = before ++ [.commit] ∧ s.run before = within begun w) ∧
    (s.run part).copies.generation? key = some g

/-- What a copy held when the open write began was committed. -/
theorem committed_of_begun {d : Device} {events : List Event}
    (hp : (idle d).ProperAll c limit events) :
    ((idle d).run events).work.Stems ((idle d).run events).begun ∧
      ∀ key g, ((idle d).run events).begun.copies.generation? key = some g →
        (idle d).Committed events key g := by
  induction events using List.reverseRecOn with
  | nil => exact ⟨.start d, fun key g hg => ⟨[], List.nil_prefix, .inl rfl, hg⟩⟩
  | append_singleton events e ih =>
    obtain ⟨hbefore, hlast, -⟩ := properAll_append.1 hp
    obtain ⟨hstems, hcommitted⟩ := ih hbefore
    have hrun : (idle d).run (events ++ [e]) = ((idle d).run events).step e := run_append _ _ _
    rw [hrun]
    refine ⟨stems_step hlast hstems, fun key g hg => ?_⟩
    have hearlier : ((idle d).run events).begun.copies.generation? key = some g →
        (idle d).Committed (events ++ [e]) key g := by
      intro hg
      obtain ⟨part, hpart, hends, hholds⟩ := hcommitted key g hg
      exact ⟨part, hpart.trans (List.prefix_append _ _), hends, hholds⟩
    by_cases hcommit : e = .commit
    · subst hcommit
      cases hs : (idle d).run events with
      | idle d' =>
        rw [hs] at hg
        exact hearlier (hs ▸ hg)
      | within begun w =>
        rw [hs] at hg
        refine ⟨_, List.prefix_rfl, .inr ⟨events, begun, w, rfl, hs⟩, ?_⟩
        rw [hrun, hs]
        exact hg
    · exact hearlier ((begun_step hlast hstems hcommit key).symm.trans hg)

/-- A message that is handed out tells what a copy holds. That was committed, unless a write is open
that has noted the copy; and unless that write is then rolled back, no message under the same number
tells of other entries. -/
theorem handed_out_stands (hc : c.Faithful) {d : Device} {before after : List Event}
    {beside₁ beside₂ : Bool} {env₁ env₂ : Env} {account : String}
    (hproper : (idle d).ProperAll c limit
      (before ++ .collect beside₁ env₁ account :: (after ++ [.collect beside₂ env₂ account]))) :
    let s₁ := (idle d).run before
    let s₂ := (idle d).run (before ++ .collect beside₁ env₁ account :: after)
    ∀ o₁ ∈ s₁.handsOut beside₁ env₁ account,
      let key : CopyKey := ⟨account, o₁.message.topic⟩
      ∃ r₁, s₁.copies.find? key = some (.ready r₁) ∧ o₁.message.Tells c r₁ ∧
        (Noted key s₁.work ∨ (idle d).Committed before key r₁.generation) ∧
        ∀ o₂ ∈ s₂.handsOut beside₂ env₂ account, o₂.message.topic = o₁.message.topic →
          o₂.message.seq = o₁.message.seq →
          (∃ r₂, s₂.copies.find? key = some (.ready r₂) ∧ o₂.message.Tells c r₂ ∧
            r₂.entries = r₁.entries) ∨ Noted key s₁.work ∧ Revoked after := by
  intro s₁ s₂ o₁ ho₁ key
  obtain ⟨hbefore, hfirst, hrest⟩ := properAll_append.1 hproper
  obtain ⟨hafter, hsecond, -⟩ := properAll_append.1 hrest
  obtain ⟨r₁, r₁', hr₁, hneeds₁, htells₁, hr₁', hspent⟩ :=
    tells_of_handsOut hc hfirst.1 hfirst.2 ho₁
  obtain ⟨hstems, hcommitted⟩ := committed_of_begun hbefore
  refine ⟨r₁, hr₁, htells₁, (hstems.unnoted key).imp_right fun hsame => ?_,
    fun o₂ ho₂ htopic hseq => ?_⟩
  · exact hcommitted key _ (hsame.symm.trans (Copies.generation?_of_ready hr₁))
  by_cases hrevoked : Noted key s₁.work ∧ Revoked after
  · exact .inr hrevoked
  refine .inl ?_
  have hs₂ : s₂ = (s₁.step (.collect beside₁ env₁ account)).run after := run_append _ _ _
  rw [← hs₂] at hsecond
  obtain ⟨r₂, -, hr₂, hneeds₂, htells₂, -⟩ := tells_of_handsOut hc hsecond.1 hsecond.2 ho₂
  rw [htopic] at hr₂
  refine ⟨r₂, hr₂, htells₂, ?_⟩
  -- Without a note there is nothing from which the number could come back.
  have hundo := undo_collect s₁ beside₁ env₁ account
  have hremembers : (s₁.step (.collect beside₁ env₁ account)).work.Remembers key r₁.seq r₁.entries
      (¬ Noted key s₁.work) := by
    refine ⟨fun p hp => hstems.named p (hundo ▸ hp), fun r hr => ?_, fun hnot u hu hkey => ?_⟩
    · obtain rfl := Slot.ready_unique hr₁' hr
      exact hspent
    · exact absurd ⟨u, hundo ▸ hu, hkey⟩ hnot
  have hspent₂ : r₂.Spent r₁.seq r₁.entries := by
    refine spent_of_run hafter hremembers ?_ (hs₂ ▸ hr₂)
    exact (Classical.em _).imp_right fun hnoted hrev => hrevoked ⟨not_not.1 hnoted, hrev⟩
  have hseqs : r₁.seq = r₂.seq := htells₁.1.symm.trans (hseq.symm.trans htells₂.1)
  rw [hseqs] at hspent₂
  exact Replica.entries_of_spent hspent₂ hneeds₂

/-- A committed edit is published twice, with an edit between that is rolled back. -/
theorem handed_out_stands_edit_between :
    let c := Cipher.xchacha20Poly1305
    let env := Env.bare c Replica.defaultLimit "05"
    let key : CopyKey := ⟨"05", .contacts⟩
    let d : Device := { copies := SortedMap.insert ∅ key (.ready (.fresh .contacts default)) }
    let set (key : String) (value : Bytes) : Event :=
      .call env "05" (.edit .contacts [⟨key, some value⟩])
    let before : List Event := [.start, set "a" [1], .commit]
    let after : List Event := [.start, set "b" [2], .rollback]
    let s₁ := (idle d).run before
    let s₂ := (idle d).run (before ++ .collect true env "05" :: after)
    ∃ o₁ ∈ s₁.handsOut true env "05", ∃ o₂ ∈ s₂.handsOut true env "05",
      ∃ r₁ r₂, o₁.message.Tells c r₁ ∧ (idle d).Committed before key r₁.generation ∧
        o₂.message.Tells c r₂ ∧ r₂.entries = r₁.entries := by
  intro c env key d set before after s₁ s₂
  have henv : env.Supplied c Replica.defaultLimit := Env.supplied_bare c Replica.defaultLimit "05"
  have hsets : ∀ topic, (env.handler topic).Sets := fun _ => Handler.sets_silent
  have hproper : (idle d).ProperAll c Replica.defaultLimit
      (before ++ .collect true env "05" :: (after ++ [.collect true env "05"])) :=
    ⟨trivial, ⟨rfl, hsets, by decide +kernel⟩, trivial, ⟨henv, by decide +kernel⟩, trivial,
      ⟨rfl, hsets, by decide +kernel⟩, trivial, ⟨henv, by decide +kernel⟩, trivial⟩
  obtain ⟨hout₁, hout₂, hnotes⟩ :
      (s₁.handsOut true env "05").map (fun o => (o.message.topic, o.message.seq)) =
        [(.contacts, 1)] ∧
      (s₂.handsOut true env "05").map (fun o => (o.message.topic, o.message.seq)) =
        [(.contacts, 1)] ∧ s₁.work.tx.undo.actions = [] := by
    decide +kernel
  obtain ⟨o₁, ho₁, htopic₁, hseq₁⟩ := Device.exists_handsOut hout₁
  obtain ⟨o₂, ho₂, htopic₂, hseq₂⟩ := Device.exists_handsOut hout₂
  have hone := handed_out_stands Cipher.faithful_xchacha20Poly1305 hproper o₁ ho₁
  obtain ⟨r₁, -, htells₁, hcommitted, hlater⟩ := hone
  have hnot : ¬ Noted ⟨"05", o₁.message.topic⟩ s₁.work := by
    rintro ⟨u, hu, -⟩
    rw [hnotes] at hu
    cases hu
  have hcommitted := hcommitted.resolve_left hnot
  rw [htopic₁] at hcommitted
  obtain ⟨r₂, -, htells₂, hentries⟩ := (hlater o₂ ho₂ (htopic₂.trans htopic₁.symm)
    (hseq₂.trans hseq₁.symm)).resolve_right fun h => hnot h.1
  exact ⟨o₁, ho₁, o₂, ho₂, r₁, r₂, htells₁, hcommitted, htells₂, hentries⟩

/-- An edit is published and then rolled back. The next edit is published under the same number. -/
theorem not_handed_out_stands_rolled_back :
    let c := Cipher.xchacha20Poly1305
    let env := Env.bare c Replica.defaultLimit "05"
    let s : Stage := idle (({} : Device).reload env "05" (List.replicate 32 0))
    let set (key : String) (value : Bytes) : Event :=
      .call env "05" (.edit .contacts [⟨key, some value⟩])
    let before : List Event := [.start, set "a" [1]]
    let after : List Event := [.rollback, .start, set "b" [2], .commit]
    let s₁ := s.run before
    let s₂ := s.run (before ++ .collect false env "05" :: after)
    ∃ o₁ ∈ s₁.handsOut false env "05", ∃ o₂ ∈ s₂.handsOut false env "05",
      o₂.message.topic = o₁.message.topic ∧ o₂.message.seq = o₁.message.seq ∧
      ∃ r₁ r₂, o₁.message.Tells c r₁ ∧ r₁.entries.keys = ["a"] ∧
        o₂.message.Tells c r₂ ∧ r₂.entries.keys = ["b"] := by
  intro c env s set before after s₁ s₂
  have henv : env.Supplied c Replica.defaultLimit := Env.supplied_bare c Replica.defaultLimit "05"
  obtain ⟨hout₁, hkeys₁, hfits₁⟩ :
      (s₁.handsOut false env "05").map (fun o => (o.message.topic, o.message.seq)) =
        [(.contacts, 1)] ∧
      (s₁.copies.generation? ⟨"05", .contacts⟩).map (·.entries.keys) = some ["a"] ∧
      s₁.copies.Fit := by
    decide +kernel
  obtain ⟨hout₂, hkeys₂, hfits₂⟩ :
      (s₂.handsOut false env "05").map (fun o => (o.message.topic, o.message.seq)) =
        [(.contacts, 1)] ∧
      (s₂.copies.generation? ⟨"05", .contacts⟩).map (·.entries.keys) = some ["b"] ∧
      s₂.copies.Fit := by
    decide +kernel
  clear_value s₁ s₂
  obtain ⟨o₁, ho₁, htopic₁, hseq₁⟩ := Device.exists_handsOut hout₁
  obtain ⟨o₂, ho₂, htopic₂, hseq₂⟩ := Device.exists_handsOut hout₂
  obtain ⟨r₁, -, hr₁, -, htells₁, -⟩ :=
    tells_of_handsOut Cipher.faithful_xchacha20Poly1305 henv hfits₁ ho₁
  obtain ⟨r₂, -, hr₂, -, htells₂, -⟩ :=
    tells_of_handsOut Cipher.faithful_xchacha20Poly1305 henv hfits₂ ho₂
  rw [htopic₁] at hr₁
  rw [htopic₂] at hr₂
  rw [Copies.generation?_of_ready hr₁] at hkeys₁
  rw [Copies.generation?_of_ready hr₂] at hkeys₂
  exact ⟨o₁, ho₁, o₂, ho₂, htopic₂.trans htopic₁.symm, hseq₂.trans hseq₁.symm, r₁, r₂, htells₁,
    Option.some.inj hkeys₁, htells₂, Option.some.inj hkeys₂⟩

end Stage

end AccountSync
