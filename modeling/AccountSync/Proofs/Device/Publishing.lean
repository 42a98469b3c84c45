import AccountSync.Device.SyncPass
import AccountSync.Proofs.Device.Held
import AccountSync.Proofs.Replica.Transition
import AccountSync.Proofs.SortedMap
/-!
What becomes of copies when their messages are collected, and when the swarm has answered.
`Published` says what can come of one topic when its message is asked for, and `Collected` what
comes of several topics one after the other (`Write.collect_run`). An answer of the swarm is a use
of a copy like an edit, with a plan of its own (`SyncPass.leaves_confirmAll`).
-/

namespace AccountSync

open Step

variable {c : Cipher} {limit : Nat} {env : Env} {account : String}

/-- The failure of a copy whose message is too long. -/
def Replica.tooLong (r : Replica) : Failure := .engine r.topic "push" "Config data is too large"

theorem Replica.tooLong_of_push {r : Replica} {nonce : Bytes} {f : Failure}
    (h : (r.push c nonce).1 = .error f) : r.limit < (r.payload c nonce).length ∧ f = r.tooLong := by
  by_cases hlong : r.limit < (r.payload c nonce).length
  · simp only [push, gt_iff_lt, if_pos hlong] at h
    exact ⟨hlong, (Except.error.inj h).symm⟩
  · simp only [push, gt_iff_lt, if_neg hlong] at h
    cases h

/-- A push as a message. -/
def Push.outgoing (push : Push) (topic : Topic) (now : Int) : Outgoing :=
  ⟨⟨topic, push.seq, push.payload, some now, none⟩, push.superseded⟩

theorem CopyKey.ne_of_notMem {topic topic' : Topic} {topics : List Topic} (h : topic ∉ topics)
    (h' : topic' ∈ topics) : (⟨account, topic'⟩ : CopyKey) ≠ ⟨account, topic⟩ := by
  intro heq
  exact h ((CopyKey.mk.inj heq).2 ▸ h')

/-! ### Collecting -/

/-- A copy in a slot has no message, or there is none. -/
def Slot.Quiet (slot : Option Slot) : Prop :=
  slot ≠ some .broken ∧ ∀ r, slot = some (.ready r) → r.needsPush = false

/-- What comes of a copy when its message is asked for: the answer, and the copies after it. -/
inductive Published (c : Cipher) (env : Env) (key : CopyKey) (cs : Copies) :
    Except Trouble (Option Outgoing) → Copies → Prop where
  | quiet : Slot.Quiet (cs.find? key) → Published c env key cs (.ok none) cs
  | unusable : cs.find? key = some .broken → Published c env key cs (.error (.failed .unusable)) cs
  | refused (r : Replica) (n : Nat) (f : Failure) : cs.find? key = some (.ready r) →
      r.needsPush = true → (r.push c (env.nonce n)).1 = .error f →
      Published c env key cs (.error (.failed (f.asEngine key.topic "push"))) cs
  | made (r : Replica) (n : Nat) (push : Push) : cs.find? key = some (.ready r) →
      r.needsPush = true → (r.push c (env.nonce n)).1 = .ok push →
      Published c env key cs (.ok (some (push.outgoing key.topic env.now)))
        (cs.insert key (.ready (r.push c (env.nonce n)).2))

/-- What comes of the copies of several topics when their messages are asked for. -/
inductive Collected (c : Cipher) (env : Env) (account : String) :
    List Topic → Copies → Except Trouble (List Outgoing) → Copies → Prop where
  | done (cs : Copies) : Collected c env account [] cs (.ok []) cs
  | next {topic : Topic} {topics : List Topic} {cs cs₁ cs₂ : Copies} {o : Option Outgoing}
      {os : List Outgoing} : Published c env ⟨account, topic⟩ cs (.ok o) cs₁ →
      Collected c env account topics cs₁ (.ok os) cs₂ →
      Collected c env account (topic :: topics) cs (.ok (o.toList ++ os)) cs₂
  | stop {topic : Topic} {topics : List Topic} {cs cs₁ : Copies} {t : Trouble} :
      Published c env ⟨account, topic⟩ cs (.error t) cs₁ →
      Collected c env account (topic :: topics) cs (.error t) cs₁
  | later {topic : Topic} {topics : List Topic} {cs cs₁ cs₂ : Copies} {o : Option Outgoing}
      {t : Trouble} : Published c env ⟨account, topic⟩ cs (.ok o) cs₁ →
      Collected c env account topics cs₁ (.error t) cs₂ →
      Collected c env account (topic :: topics) cs (.error t) cs₂

/-- What becomes of a slot while messages are collected: its copy is pushed, or it stays as it is.
-/
def Slot.Kept (c : Cipher) (env : Env) (slot slot' : Option Slot) : Prop :=
  slot' = slot ∨ ∃ r n, slot = some (.ready r) ∧ r.needsPush = true ∧
    slot' = some (.ready (r.push c (env.nonce n)).2)

/-- A message is that of the copy in a slot, and the copy has sent it. -/
def Slot.Sends (c : Cipher) (env : Env) (slot slot' : Option Slot) (o : Outgoing) : Prop :=
  ∃ r n push, slot = some (.ready r) ∧ r.needsPush = true ∧
    (r.push c (env.nonce n)).1 = .ok push ∧ o = push.outgoing o.message.topic env.now ∧
    slot' = some (.ready (r.push c (env.nonce n)).2)

/-- How a slot keeps messages from being collected: its copy is lost, or its message is too long. -/
def Slot.Stuck (c : Cipher) (env : Env) (slot : Option Slot) (t : Trouble) : Prop :=
  slot = some .broken ∧ t = .failed .unusable ∨
    ∃ r n, slot = some (.ready r) ∧ r.needsPush = true ∧
      r.limit < (r.payload c (env.nonce n)).length ∧ t = .failed r.tooLong

namespace Published

variable {key key' : CopyKey} {cs cs' : Copies} {result : Except Trouble (Option Outgoing)}

theorem frame (h : Published c env key cs result cs') (hne : key' ≠ key) :
    cs'.find? key' = cs.find? key' := by
  cases h with
  | quiet | unusable | refused => rfl
  | made => exact SortedMap.find?_insert_of_ne hne

theorem kept (h : Published c env key cs result cs') :
    Slot.Kept c env (cs.find? key) (cs'.find? key) := by
  cases h with
  | quiet | unusable | refused => exact .inl rfl
  | made r n push hslot hneeds =>
    exact .inr ⟨r, n, hslot, hneeds, SortedMap.find?_insert_self _ _ _⟩

theorem sends {o : Outgoing} (h : Published c env key cs (.ok (some o)) cs') :
    o.message.topic = key.topic ∧ Slot.Sends c env (cs.find? key) (cs'.find? key) o := by
  cases h with
  | made r n push hslot hneeds hpush =>
    exact ⟨rfl, r, n, push, hslot, hneeds, hpush, rfl, SortedMap.find?_insert_self _ _ _⟩

theorem quiet_of_none (h : Published c env key cs (.ok none) cs') : Slot.Quiet (cs.find? key) := by
  cases h with
  | quiet hquiet => exact hquiet

theorem stuck {t : Trouble} (h : Published c env key cs (.error t) cs') :
    Slot.Stuck c env (cs.find? key) t := by
  cases h with
  | unusable hslot => exact .inl ⟨hslot, rfl⟩
  | refused r n f hslot hneeds hpush =>
    obtain ⟨hlong, rfl⟩ := Replica.tooLong_of_push hpush
    exact .inr ⟨r, n, hslot, hneeds, hlong, rfl⟩

end Published

namespace Collected

variable {topic : Topic} {topics : List Topic} {key : CopyKey} {cs cs' : Copies}
  {os : List Outgoing} {result : Except Trouble (List Outgoing)}

/-- Slots that are not gone through stay as they are. -/
theorem frame (h : Collected c env account topics cs result cs')
    (hkey : key.account = account → key.topic ∉ topics) : cs'.find? key = cs.find? key := by
  have hhead : ∀ {topic topics}, (key.account = account → key.topic ∉ topic :: topics) →
      key ≠ ⟨account, topic⟩ := by
    rintro topic topics hnot rfl
    exact hnot rfl List.mem_cons_self
  -- By induction on how far the collection came.
  induction h with
  | done => rfl
  | stop hp => exact hp.frame (hhead hkey)
  | next hp _ ih | later hp _ ih =>
    rw [ih fun ha => mt (List.mem_cons_of_mem _) (hkey ha)]
    exact hp.frame (hhead hkey)

/-- Of distinct topics, that of a slot is gone through first, or not first. -/
theorem kept (h : Collected c env account topics cs result cs') (hn : topics.Nodup)
    (key : CopyKey) : Slot.Kept c env (cs.find? key) (cs'.find? key) := by
  induction h with
  | done => exact .inl rfl
  | @stop topic _ _ _ _ hp =>
    by_cases hkey : key = ⟨account, topic⟩
    · subst hkey
      exact hp.kept
    · exact .inl (hp.frame hkey)
  | @next topic _ _ _ _ _ _ hp hrest ih | @later topic _ _ _ _ _ _ hp hrest ih =>
    obtain ⟨hnot, hn⟩ := List.nodup_cons.1 hn
    by_cases hkey : key = ⟨account, topic⟩
    · subst hkey
      rw [hrest.frame fun _ => hnot]
      exact hp.kept
    · rw [← hp.frame hkey]
      exact ih hn

/-- Every message is that of a copy, and there is one at most of each topic. -/
theorem sends (h : Collected c env account topics cs result cs') (hn : topics.Nodup)
    (hok : result = .ok os) :
    (∀ o ∈ os, o.message.topic ∈ topics ∧ Slot.Sends c env
      (cs.find? ⟨account, o.message.topic⟩) (cs'.find? ⟨account, o.message.topic⟩) o) ∧
      (os.map (·.message.topic)).Nodup := by
  induction h generalizing os with
  | done =>
    obtain rfl := Except.ok.inj hok
    exact ⟨fun o ho => absurd ho List.not_mem_nil, List.nodup_nil⟩
  | stop | later => cases hok
  | @next topic topics cs cs₁ cs₂ o rest hp hrest ih =>
    obtain rfl := Except.ok.inj hok
    obtain ⟨hnot, hn⟩ := List.nodup_cons.1 hn
    obtain ⟨ih, hnodup⟩ := ih hn rfl
    have hothers : ∀ x ∈ rest, x.message.topic ∈ topic :: topics ∧ Slot.Sends c env
        (cs.find? ⟨account, x.message.topic⟩) (cs₂.find? ⟨account, x.message.topic⟩) x := by
      intro x hx
      obtain ⟨hmem, hsends⟩ := ih x hx
      exact ⟨List.mem_cons_of_mem _ hmem, hp.frame (CopyKey.ne_of_notMem hnot hmem) ▸ hsends⟩
    cases o with
    | none => exact ⟨hothers, hnodup⟩
    | some x =>
      obtain ⟨hx, hsends⟩ := hp.sends
      have hframe : cs₂.find? ⟨account, topic⟩ = cs₁.find? ⟨account, topic⟩ :=
        hrest.frame fun _ => hnot
      rw [← hframe] at hsends
      refine ⟨List.forall_mem_cons.2 ⟨⟨?_, ?_⟩, hothers⟩, List.nodup_cons.2 ⟨?_, hnodup⟩⟩
      · exact hx ▸ List.mem_cons_self
      · rwa [hx]
      · rintro hmem
        obtain ⟨y, hy, hyx⟩ := List.mem_map.1 hmem
        have htopic : y.message.topic = topic := hyx.trans hx
        exact hnot (htopic ▸ (ih y hy).1)

/-- A copy that is gone through has a message among those collected, or nothing to publish. -/
theorem covers (h : Collected c env account topics cs result cs') (hn : topics.Nodup)
    (hok : result = .ok os) (ht : topic ∈ topics) :
    Slot.Quiet (cs.find? ⟨account, topic⟩) ∨ ∃ o ∈ os, o.message.topic = topic := by
  induction h generalizing os with
  | done => cases ht
  | stop | later => cases hok
  | @next t topics cs cs₁ cs₂ o rest hp hrest ih =>
    obtain rfl := Except.ok.inj hok
    obtain ⟨hnot, hn⟩ := List.nodup_cons.1 hn
    rcases List.mem_cons.1 ht with rfl | ht
    · cases o with
      | none => exact .inl hp.quiet_of_none
      | some x => exact .inr ⟨x, List.mem_cons_self, hp.sends.1⟩
    · rw [← hp.frame (CopyKey.ne_of_notMem hnot ht)]
      refine (ih hn rfl ht).imp_right fun ⟨x, hx, hxt⟩ => ⟨x, List.mem_append_right _ hx, hxt⟩

/-- A collection that fails has met a copy that is lost, or one whose message is too long. -/
theorem stuck {t : Trouble} (h : Collected c env account topics cs result cs') (hn : topics.Nodup)
    (herror : result = .error t) :
    ∃ topic ∈ topics, Slot.Stuck c env (cs.find? ⟨account, topic⟩) t := by
  induction h with
  | done | next => cases herror
  | @stop topic _ _ _ _ hp =>
    obtain rfl := Except.error.inj herror
    exact ⟨topic, List.mem_cons_self, hp.stuck⟩
  | @later topic _ _ _ _ _ _ hp _ ih =>
    obtain rfl := Except.error.inj herror
    obtain ⟨hnot, hn⟩ := List.nodup_cons.1 hn
    obtain ⟨topic', hmem, hstuck⟩ := ih hn rfl
    exact ⟨topic', List.mem_cons_of_mem _ hmem, hp.frame (CopyKey.ne_of_notMem hnot hmem) ▸ hstuck⟩

end Collected

namespace Write

variable {α : Type} {key : CopyKey} {r r' : Replica} {w w' : Work}

theorem use_of_none (x : Use α) (hslot : w.device.copies.find? key = none) :
    use key x w = (.ok none, w) := by
  simp only [use, hslot]

theorem use_of_broken (x : Use α) (hslot : w.device.copies.find? key = some .broken) :
    use key x w = (.error (.failed .unusable), w) := by
  simp only [use, hslot]

theorem use_of_ok {x : Use α} {a : α} (hslot : w.device.copies.find? key = some (.ready r))
    (hx : x (r, w) = (.ok a, (r', w'))) :
    use key x w = (.ok (some a), settle w' key (.ready r')) := by
  simp only [use, hslot, hx]

theorem use_of_failed {x : Use α} {f : Failure}
    (hslot : w.device.copies.find? key = some (.ready r))
    (hx : x (r, w) = (.error (.failed f), (r', w'))) :
    use key x w = (.error (.failed f), settle w' key (.ready r')) := by
  simp only [use, hslot, hx]

theorem publish?_of_settled (env : Env) (key : CopyKey) (hneeds : r.needsPush = false) (w : Work) :
    publish? env key (r, w) = (.ok none, (r, w)) := by
  have hcopy : Use.copy (r, w) = (.ok r, (r, w)) := rfl
  rw [publish?, bind_run_ok hcopy, hneeds]
  rfl

/-- A copy with changes to publish is handed to the engine under the next number of the device. -/
theorem publish?_pushes (env : Env) (key : CopyKey) (hneeds : r.needsPush = true) (w : Work) :
    publish? env key (r, w) =
      (match (env.engine.push (env.nonce w.device.pushes) r).1 with
        | .ok push => .ok (some (push.outgoing key.topic env.now))
        | .error t => .error (.failed (t.guarded key.topic "push")),
      ((env.engine.push (env.nonce w.device.pushes) r).2,
        { w with device := { w.device with pushes := w.device.pushes + 1 } })) := by
  let w₁ : Work := { w with device := { w.device with pushes := w.device.pushes + 1 } }
  have hcopy : Use.copy (r, w) = (.ok r, (r, w)) := rfl
  have hfresh : Use.outside freshPush (r, w) = (.ok w.device.pushes, (r, w₁)) := rfl
  rw [publish?, bind_run_ok hcopy, hneeds]
  refine (bind_run_ok hfresh).trans ?_
  rcases hpush : env.engine.push (env.nonce w.device.pushes) r with ⟨t | push, r'⟩
  · have hguarded : Use.guarded key.topic "push" (env.engine.push (env.nonce w.device.pushes))
        (r, w₁) = (.error (.failed (t.guarded key.topic "push")), (r', w₁)) := by
      simp only [Use.guarded, Use.call, hpush]
      rfl
    exact bind_run_error hguarded
  · have hguarded : Use.guarded key.topic "push" (env.engine.push (env.nonce w.device.pushes))
        (r, w₁) = (.ok push, (r', w₁)) := by
      simp only [Use.guarded, Use.call, hpush]
      rfl
    exact bind_run_ok hguarded

theorem publish?_of_needsPush (henv : env.engine = .plain c limit) (key : CopyKey)
    (hneeds : r.needsPush = true) (w : Work) : publish? env key (r, w) =
      (match (r.push c (env.nonce w.device.pushes)).1 with
        | .ok push => .ok (some (push.outgoing key.topic env.now))
        | .error f => .error (.failed (f.asEngine key.topic "push")),
      ((r.push c (env.nonce w.device.pushes)).2,
        { w with device := { w.device with pushes := w.device.pushes + 1 } })) := by
  rw [publish?_pushes env key hneeds w, henv]
  rcases hpush : r.push c (env.nonce w.device.pushes) with ⟨f | push, r'⟩ <;>
    simp only [Engine.plain, hpush] <;> rfl

/-- What stays as it is while messages are collected. -/
def stays (w : Work) : Transaction Signal Undo × Database := (w.tx, w.device.database)

theorem publish?_run (henv : env.engine = .plain c limit) (key : CopyKey) (w : Work) :
    ∃ result w', (Option.join <$> use key (publish? env key)) w = (result, w') ∧
      stays w' = stays w ∧ Published c env key w.device.copies result w'.device.copies := by
  cases hslot : w.device.copies.find? key with
  | none =>
    have hrun := use_of_none (publish? env key) hslot
    exact ⟨_, _, bind_run_ok hrun, rfl, .quiet (by simp [Slot.Quiet, hslot])⟩
  | some slot =>
    cases slot with
    | broken =>
      have hrun := use_of_broken (publish? env key) hslot
      exact ⟨_, _, bind_run_error hrun, rfl, .unusable hslot⟩
    | ready r =>
      have hsame : w.device.copies.insert key (.ready r) = w.device.copies :=
        SortedMap.insert_of_find? hslot
      cases hneeds : r.needsPush with
      | false =>
        have hrun := use_of_ok hslot (publish?_of_settled env key hneeds w)
        refine ⟨_, _, bind_run_ok hrun, rfl, ?_⟩
        rw [settle, hsame]
        refine .quiet ⟨by simp [hslot], fun q hq => ?_⟩
        obtain rfl : r = q := Slot.ready_unique hslot hq
        exact hneeds
      | true =>
        have hbody := publish?_of_needsPush henv key hneeds w
        have hpushed := Replica.push_pushed c (env.nonce w.device.pushes) r
        cases hpush : (r.push c (env.nonce w.device.pushes)).1 with
        | error f =>
          have hback : (r.push c (env.nonce w.device.pushes)).2 = r := by
            generalize r.push c (env.nonce w.device.pushes) = x at hpushed hpush
            cases hpushed with
            | refused => rfl
            | made => cases hpush
          rw [hpush, hback] at hbody
          refine ⟨_, _, bind_run_error (use_of_failed hslot hbody), rfl, ?_⟩
          rw [settle, hsame]
          exact .refused r _ f hslot hneeds hpush
        | ok push =>
          rw [hpush] at hbody
          exact ⟨_, _, bind_run_ok (use_of_ok hslot hbody), rfl, .made r _ push hslot hneeds hpush⟩

theorem each_publish?_run (henv : env.engine = .plain c limit) (account : String) :
    ∀ (topics : List Topic) (w : Work), ∃ result w',
      (each (fun topic => Option.join <$> use ⟨account, topic⟩ (publish? env ⟨account, topic⟩))
        topics) w = (result, w') ∧ stays w' = stays w ∧
      Collected c env account topics w.device.copies (result.map (·.filterMap id))
        w'.device.copies
  | [], w => ⟨_, _, rfl, rfl, .done _⟩
  | topic :: topics, w => by
    obtain ⟨result, w₁, hone, hstays₁, hpublished⟩ := publish?_run henv ⟨account, topic⟩ w
    obtain ⟨results, w₂, hrest, hstays₂, hcollected⟩ := each_publish?_run henv account topics w₁
    rw [each]
    cases result with
    | error t => exact ⟨_, _, bind_run_error hone, hstays₁, .stop hpublished⟩
    | ok o =>
      rw [bind_run_ok hone]
      cases results with
      | error t =>
        exact ⟨_, _, bind_run_error hrest, hstays₂.trans hstays₁, .later hpublished hcollected⟩
      | ok os =>
        refine ⟨_, _, bind_run_ok hrest, hstays₂.trans hstays₁, ?_⟩
        have hmessages : (o :: os).filterMap id = o.toList ++ os.filterMap id := by
          cases o <;> rfl
        show Collected c env account _ _ (.ok ((o :: os).filterMap id)) _
        rw [hmessages]
        exact .next hpublished hcollected

theorem publishedTopics_sublist {db : Database} {identity : String} {dumped : List Topic}
    (h : db.topicsOf account = .ok dumped) :
    (publishedTopics account identity dumped).Sublist Topic.all := by
  unfold publishedTopics
  split
  · exact List.Sublist.refl _
  · unfold Database.topicsOf at h
    cases ht : db.anyTable with
    | error f =>
      rw [ht] at h
      cases h
    | ok t =>
      simp only [ht, bind, Except.bind] at h
      split at h
      · cases h
      · obtain rfl := Except.ok.inj h
        exact List.filter_sublist

theorem nodup_publishedTopics {db : Database} {identity : String} {dumped : List Topic}
    (h : db.topicsOf account = .ok dumped) : (publishedTopics account identity dumped).Nodup := by
  have hall : Topic.all.Nodup := by decide
  exact (publishedTopics_sublist h).nodup hall

/-- A collection fails before it has asked for any message, or it asks for the messages of the
account's topics. -/
theorem collect_runs (henv : env.engine = .plain c limit) (account : String) (w : Work) :
    ∃ result w', collect env account w = (result, w') ∧ stays w' = stays w ∧
      ((env.identity = none ∨ ∃ f, w.tx.database.topicsOf account = .error f) ∧
          (∃ f, result = .error (.failed f)) ∧ w'.device.copies = w.device.copies ∨
        ∃ identity dumped, env.identity = some identity ∧
          w.tx.database.topicsOf account = .ok dumped ∧
          Collected c env account (publishedTopics account identity dumped) w.device.copies
            result w'.device.copies) := by
  unfold collect
  cases hid : env.identity with
  | none => exact ⟨.error (.failed .noUser), w, rfl, rfl, .inl ⟨.inl rfl, ⟨_, rfl⟩, rfl⟩⟩
  | some identity =>
    cases hdumped : w.tx.database.topicsOf account with
    | error f =>
      have hrows : rows (fun db => return (← db.topicsOf account, db)) w =
          (.error (.failed f), w) := rows_of_error (by simp only [hdumped]; rfl)
      exact ⟨_, _, bind_run_error hrows, rfl, .inl ⟨.inr ⟨f, rfl⟩, ⟨f, rfl⟩, rfl⟩⟩
    | ok dumped =>
      have hrows : rows (fun db => return (← db.topicsOf account, db)) w = (.ok dumped, w) :=
        rows_of_ok (by simp only [hdumped]; rfl)
      obtain ⟨result, w', heach, hstays, hcollected⟩ :=
        each_publish?_run henv account (publishedTopics account identity dumped) w
      simp only
      rw [bind_run_ok hrows]
      cases result with
      | error t =>
        exact ⟨_, _, bind_run_error heach, hstays, .inr ⟨identity, dumped, rfl, rfl, hcollected⟩⟩
      | ok messages =>
        exact ⟨_, _, bind_run_ok heach, hstays, .inr ⟨identity, dumped, rfl, rfl, hcollected⟩⟩

/-- Outside of a write a collection leaves the rows as they are. -/
theorem collect_run (henv : env.engine = .plain c limit) (account : String) (d : Device) :
    (d.read (collect env account)).2.database = d.database ∧
      ((env.identity = none ∨ ∃ f, d.database.topicsOf account = .error f) ∧
          (∃ f, (d.read (collect env account)).1 = .error (.failed f)) ∧
          (d.read (collect env account)).2.copies = d.copies ∨
        ∃ identity dumped, env.identity = some identity ∧
          d.database.topicsOf account = .ok dumped ∧
          Collected c env account (publishedTopics account identity dumped) d.copies
            (d.read (collect env account)).1 (d.read (collect env account)).2.copies) := by
  obtain ⟨result, w, hrun, hstays, hcollected⟩ := collect_runs henv account d.start
  have hread : d.read (collect env account) = (result, w.device) := by
    simp only [Device.read, hrun]
  rw [hread]
  exact ⟨congrArg Prod.snd hstays, hcollected⟩

end Write

/-! ### Answers of the swarm -/

/-- The swarm's answer to a message, as a plan. -/
def Plan.confirm (env : Env) (message : Message) (hash : String) : Plan := fun r =>
  keep (message.time.getD env.now) (r.confirm message.seq hash).2

/-- What a confirmation counts. -/
def Stats.tally (applied dumped : Bool) (s : Stats) : Stats :=
  let s := if applied then s.confirm else s
  if dumped then s.save 1 else s

namespace Write

/-- A copy is told what was stored, and its dump is handed out if that is called for. -/
theorem confirm_eq {applied : Bool} (henv : env.engine = .plain c limit) (message : Message)
    (hash : String) (hslot : w.device.copies.find? ⟨account, message.topic⟩ = some (.ready r))
    (hr : r.confirm message.seq hash = (applied, r')) :
    confirm env account message hash w =
      (.ok (if r'.unsaved then some ⟨message.topic, account, Standing.layout.put r'.toStanding,
          message.time.getD env.now⟩ else none),
        { w with device := { w.device with
          copies := w.device.copies.insert ⟨account, message.topic⟩
            (.ready { r' with unsaved := false })
          stats := w.device.stats.tally applied r'.unsaved } }) := by
  let key : CopyKey := ⟨account, message.topic⟩
  let body : Use (Bool × Option Dump) := do
    let applied ← Use.guarded key.topic "confirm_pushed" (env.engine.confirm message.seq hash)
    let dump ← Use.dump? env key (message.time.getD env.now)
    return (applied, dump)
  have hconfirm : Use.guarded key.topic "confirm_pushed" (env.engine.confirm message.seq hash)
      (r, w) = (.ok applied, (r', w)) := by
    simp only [Use.guarded, Use.call, henv, Engine.plain, hr]
    rfl
  have hbody : body (r, w) = (.ok (applied, _), (_, w)) :=
    (bind_run_ok hconfirm).trans (bind_run_ok (Use.dump?_run henv key _ r' w))
  refine (bind_run_ok (use_of_ok hslot hbody)).trans ?_
  cases applied <;> cases r'.unsaved <;> rfl

/-- A copy is told what was stored, and saved. -/
theorem leaves_confirm_store (henv : env.engine = .plain c limit) (account : String)
    (message : Message) (hash : String) (w : Work) :
    (do if let some dump ← confirm env account message hash then store dump).leaves Work.held w =
      w.held.use ⟨account, message.topic⟩ (.confirm env message hash) := by
  cases hslot : w.device.copies.find? ⟨account, message.topic⟩ with
  | none =>
    have hrun : confirm env account message hash w = (.ok none, w) :=
      bind_run_ok (use_of_none _ hslot)
    rw [leaves_bind hrun, Held.use]
    simp only [Work.held, hslot]
    rfl
  | some slot =>
    cases slot with
    | broken =>
      have hrun : confirm env account message hash w = (.error (.failed .unusable), w) :=
        bind_run_error (use_of_broken _ hslot)
      rw [leaves_bind_error hrun, Held.use]
      simp only [Work.held, hslot]
    | ready r =>
      rcases hr : r.confirm message.seq hash with ⟨applied, r'⟩
      have hplan : Plan.confirm env message hash r =
          some (r', .ofUnsaved r' (message.time.getD env.now)) := by
        rw [Plan.confirm, hr]
        rfl
      rw [leaves_bind (confirm_eq henv message hash hslot hr),
        Held.use_ready (h := w.held) hslot hplan, Keeping.ofUnsaved]
      cases hunsaved : r'.unsaved with
      | false =>
        have hsame : { r' with unsaved := false } = r' := by rw [← hunsaved]
        simp only [hsame]
        rfl
      | true =>
        simp only [if_true, leaves_store]
        rfl

end Write

namespace SyncPass

theorem leaves_confirmAll (henv : env.engine = .plain c limit) (account : String) :
    ∀ (stored : List Stored) (w : Work),
      (confirmAll env account stored).leaves Work.held w =
        stored.foldlM (fun h s => h.use ⟨account, s.outgoing.message.topic⟩
          (.confirm env s.outgoing.message s.hash)) w.held
  | [], _ => rfl
  | s :: rest, w => by
    have hrest := leaves_confirmAll henv account rest
    have hone := Write.leaves_confirm_store henv account s.outgoing.message s.hash w
    have hbind : confirmAll env account (s :: rest) =
        (do if let some dump ← Write.confirm env account s.outgoing.message s.hash then
              Write.store dump) >>= fun _ => confirmAll env account rest := by
      rw [confirmAll, bind_assoc]
      congr 1
      funext dump
      cases dump <;> rfl
    let F : Held → Option Held := fun h => rest.foldlM (fun h s =>
      h.use ⟨account, s.outgoing.message.topic⟩ (.confirm env s.outgoing.message s.hash)) h
    rw [hbind, leaves_bind_view (F := F) fun _ => hrest, hone]
    rfl

end SyncPass

end AccountSync
