import Mathlib.Data.List.Nodup
import AccountSync.Proofs.Device.Meanwhile
import AccountSync.Proofs.Device.Publishing
import AccountSync.Proofs.Swarm.Steps
/-!
What a sync pass comes to if edits are committed while the swarm is asked. The edits of a copy are
on top of what was sent of it, whatever the swarm answers; a copy is settled only if its message was
stored and no edit has mattered since, and else it has a message again (`SyncPass.retry_safe`). An
edit may make the message of another copy too long, and then there is no collection of messages at
all (`SyncPass.not_collected_again`).
-/

namespace AccountSync

variable {σ : Type} {c : Cipher} {limit : Nat} {env env' : Env} {account : String}

/-! ### Transport -/

namespace Transport

variable {t : Transport σ} {ledger : σ → List Edit} {s s' s'' : σ × Device}

/-- From one state to another the device commits edits, and they are written in a ledger. -/
def Busy (c : Cipher) (limit : Nat) (ledger : σ → List Edit) (s s' : σ × Device) : Prop :=
  ∃ commits, s.2.Edits c limit commits s'.2 ∧ ledger s'.1 = ledger s.1 ++ commits.flatten

theorem Busy.refl (s : σ × Device) : Busy c limit ledger s s :=
  ⟨[], rfl, (List.append_nil _).symm⟩

theorem Busy.trans (h : Busy c limit ledger s s') (h' : Busy c limit ledger s' s'') :
    Busy c limit ledger s s'' := by
  obtain ⟨commits, hedits, hledger⟩ := h
  obtain ⟨others, hedits', hledger'⟩ := h'
  refine ⟨commits ++ others, hedits.append hedits', ?_⟩
  rw [hledger', hledger, List.flatten_append, List.append_assoc]

/-- While a call is under way the device commits edits, and does nothing else. -/
structure Edits (c : Cipher) (limit : Nat) (t : Transport σ) (ledger : σ → List Edit) : Prop where
  store : ∀ account o s, Busy c limit ledger s (t.store account o s).2
  delete : ∀ account hashes s, Busy c limit ledger s (t.delete account hashes s).2

/-- Edits are committed during the call that stores a message of their topic, which is answered in
one way; hashes are deleted without any. -/
def scripted (answer : Topic → Except Failure String) (edits : Topic → List Edit) :
    Transport (List Edit) where
  store _ o s :=
    match s.2.write (Edit.body (edits o.message.topic)) with
    | (.ok _, d) => (answer o.message.topic, (s.1 ++ edits o.message.topic, d))
    | (.error _, _) => (answer o.message.topic, s)
  delete _ _ s := (.ok (), s)

theorem edits_scripted {answer : Topic → Except Failure String} {edits : Topic → List Edit}
    (h : ∀ topic, ∀ e ∈ edits topic, e.env.engine = .plain c limit) :
    (scripted answer edits).Edits c limit id where
  store account o s := by
    rcases hwrite : s.2.write (Edit.body (edits o.message.topic)) with ⟨f | replies, d⟩
    · simp only [scripted, hwrite]
      exact .refl s
    · simp only [scripted, hwrite]
      refine ⟨[edits o.message.topic], ⟨h _, ⟨replies, ?_⟩, ?_⟩, ?_⟩
      · rw [hwrite]
      · rw [hwrite]
        rfl
      · simp
  delete _ _ s := .refl s

end Transport

/-! ### Messages -/

/-- A message tells what a copy holds: it has the number of the copy, and the copy reads it so. -/
def Message.Tells (c : Cipher) (message : Message) (r : Replica) : Prop :=
  message.seq = r.seq ∧ r.read? c message.payload = some r.generation

/-- No message of a copy is short enough. -/
def Replica.Outgrown (c : Cipher) (r : Replica) : Prop :=
  ∀ nonce : Bytes, nonce.length = Cipher.nonceLength → r.limit < (r.payload c nonce).length

/-- How long a message is depends on the generation only. -/
theorem Replica.length_payload_congr (hc : c.Faithful) {r r' : Replica} {nonce nonce' : Bytes}
    (hnonce : nonce.length = Cipher.nonceLength) (hnonce' : nonce'.length = Cipher.nonceLength)
    (hgen : r'.generation = r.generation) :
    (r'.payload c nonce').length = (r.payload c nonce).length := by
  rw [length_payload hc r hnonce, length_payload hc r' hnonce', hgen]

theorem Replica.outgrown_of_length (hc : c.Faithful) {r : Replica} {nonce : Bytes}
    (hnonce : nonce.length = Cipher.nonceLength) (h : r.limit < (r.payload c nonce).length) :
    r.Outgrown c := by
  intro nonce' hnonce'
  rwa [length_payload_congr hc hnonce hnonce' rfl]

/-- The message of a copy tells what any copy with its content holds. -/
theorem Message.tells_of_push (hc : c.Faithful) {r q : Replica} {nonce : Bytes} {push : Push}
    {o : Outgoing} {now : Int} (hfits : q.Fits) (hnonce : nonce.length = Cipher.nonceLength)
    (hpush : (q.push c nonce).1 = .ok push) (ho : o = push.outgoing o.message.topic now)
    (hfixed : q.fixed = r.fixed) (hgen : q.generation = r.generation) : o.message.Tells c r := by
  obtain ⟨htopic, hrest⟩ := Prod.ext_iff.1 hfixed
  rw [ho]
  refine ⟨(Replica.push_eq_ok hpush).2.1.trans (congrArg Generation.seq hgen), ?_⟩
  rw [← hgen]
  exact Replica.read?_push hc hfits.generation_words hfits.generation_length hnonce hpush
    htopic.symm (Prod.ext_iff.1 hrest).1.symm

/-- No message is too long of a copy with the content of one that could be sent. -/
theorem Replica.length_payload_le (hc : c.Faithful) {r r' : Replica} {nonce nonce' : Bytes}
    {push : Push} (hpush : (r.push c nonce).1 = .ok push)
    (hnonce : nonce.length = Cipher.nonceLength) (hnonce' : nonce'.length = Cipher.nonceLength)
    (hfixed : r'.fixed = r.fixed) (hgen : r'.generation = r.generation) :
    (r'.payload c nonce').length ≤ r'.limit := by
  have hlimit : r'.limit = r.limit := (Prod.ext_iff.1 (Prod.ext_iff.1 hfixed).2).2
  rw [length_payload_congr hc hnonce hnonce' hgen, hlimit]
  exact (Replica.push_eq_ok hpush).2.2

namespace SyncPass

variable {t : Transport σ} {ledger : σ → List Edit} {s : σ × Device} {report : Report}

/-- What the swarm answers to messages that are sent one after the other. -/
def answers (t : Transport σ) (account : String) :
    List Outgoing → σ × Device → List (Outgoing × Except Failure String)
  | [], _ => []
  | o :: rest, s => (o, (t.store account o s).1) :: answers t account rest (t.store account o s).2

theorem map_fst_answers (t : Transport σ) (account : String) :
    ∀ (os : List Outgoing) (s : σ × Device), (answers t account os s).map Prod.fst = os
  | [], _ => rfl
  | _ :: os, _ => congrArg (List.cons _) (map_fst_answers t account os _)

/-- Stored are the messages to which the swarm answers with a hash. -/
def stored? (answer : Outgoing × Except Failure String) : Option Stored :=
  answer.2.toOption.map fun hash => ⟨answer.1, hash⟩

theorem send_cons_ok {o : Outgoing} {hash : String} {os : List Outgoing} {s s₁ : σ × Device}
    (h : t.store account o s = (.ok hash, s₁)) : send t account (o :: os) s =
      (⟨o, hash⟩ :: (send t account os s₁).1, (send t account os s₁).2) := by
  rw [send.eq_def]
  simp only [h]

theorem send_cons_error {o : Outgoing} {f : Failure} {os : List Outgoing} {s s₁ : σ × Device}
    (h : t.store account o s = (.error f, s₁)) : send t account (o :: os) s =
      send t account os s₁ := by
  rw [send.eq_def]
  simp only [h]

theorem send_eq : ∀ (os : List Outgoing) (s : σ × Device),
    (send t account os s).1 = (answers t account os s).filterMap stored?
  | [], _ => rfl
  | o :: os, s => by
    rw [answers]
    rcases hstore : t.store account o s with ⟨f | hash, s₁⟩
    · rw [send_cons_error hstore, send_eq os s₁]
      rfl
    · rw [send_cons_ok hstore, send_eq os s₁]
      rfl

theorem busy_send (ht : t.Edits c limit ledger) (account : String) :
    ∀ (os : List Outgoing) (s : σ × Device),
      Transport.Busy c limit ledger s (send t account os s).2
  | [], s => .refl s
  | o :: os, s => by
    have hone := ht.store account o s
    rcases hstore : t.store account o s with ⟨f | hash, s₁⟩ <;> rw [hstore] at hone
    · rw [send_cons_error hstore]
      exact hone.trans (busy_send ht account os s₁)
    · rw [send_cons_ok hstore]
      exact hone.trans (busy_send ht account os s₁)

theorem busy_prune (ht : t.Edits c limit ledger) (account : String) (hashes : List String)
    (s : σ × Device) : Transport.Busy c limit ledger s (prune t account hashes s).2 := by
  have hone := ht.delete account hashes s
  unfold prune
  split
  · exact .refl s
  · rcases hdelete : t.delete account hashes s with ⟨_ | _, s₁⟩ <;> rw [hdelete] at hone <;>
      exact hone

theorem length_send_le (t : Transport σ) (account : String) (os : List Outgoing) (s : σ × Device) :
    (send t account os s).1.length ≤ os.length := by
  have hall := List.length_filterMap_le stored? (answers t account os s)
  have hos := congrArg List.length (map_fst_answers t account os s)
  rw [List.length_map] at hos
  rwa [← send_eq, hos] at hall

/-- The use of a copy to which an answer leads: only a hash is told. -/
def answerUse (env : Env) (answer : Outgoing × Except Failure String) : Option (Topic × Plan) :=
  (stored? answer).map fun s => (s.outgoing.message.topic, .confirm env s.outgoing.message s.hash)

/-- To confirm what was stored is to use copies as the answers say. -/
theorem leaves_confirmAll_send (henv : env.engine = .plain c limit) (t : Transport σ)
    (account : String) (os : List Outgoing) (s : σ × Device) (w : Work) :
    (confirmAll env account (send t account os s).1).leaves Work.held w =
      w.held.useAll account ((answers t account os s).filterMap (answerUse env)) := by
  have hmap : (answers t account os s).filterMap (answerUse env) =
      (send t account os s).1.map fun s =>
        (s.outgoing.message.topic, .confirm env s.outgoing.message s.hash) := by
    rw [send_eq, List.map_filterMap]
    rfl
  rw [leaves_confirmAll henv, hmap, Held.useAll, List.foldlM_map]

/-- A pass that does not fail has collected messages, the device has committed edits, and all that
the swarm has stored was confirmed. -/
theorem run_ok (henv : env.engine = .plain c limit) (ht : t.Edits c limit ledger)
    (h : (run env t account s).1 = .ok report) : ∃ os edits, ∃ h₂ : Held,
      let collected := s.2.read (Write.collect env account)
      let ps := answers t account os (s.1, collected.2)
      collected.1 = .ok os ∧ report.pushed + report.failed = os.length ∧
        ledger (run env t account s).2.1 = ledger s.1 ++ edits ∧
        collected.2.held.edited edits = some h₂ ∧
        h₂.useAll account (ps.filterMap (answerUse env)) = some (run env t account s).2.2.held := by
  rcases hcollect : s.2.read (Write.collect env account) with ⟨f | os, d⟩
  · simp only [run, hcollect] at h
    cases h
  have hlength := length_send_le t account os (s.1, d)
  have hconfirm := leaves_confirmAll_send henv t account os (s.1, d)
  have hsend := busy_send ht account os (s.1, d)
  simp only [run, hcollect] at h ⊢
  generalize hsent : send t account os (s.1, d) = sent at hlength hconfirm hsend h ⊢
  have hprune := busy_prune ht account (superseded sent.1) sent.2
  generalize prune t account (superseded sent.1) sent.2 = pruned at hprune h ⊢
  obtain ⟨commits, hedits, hledger⟩ := hsend.trans hprune
  refine ⟨os, commits.flatten, pruned.2.2.held, rfl, ?_⟩
  have hcount : sent.1.length + (os.length - sent.1.length) = os.length := by omega
  by_cases hnone : sent.1 = []
  · rw [if_pos hnone] at h ⊢
    obtain rfl := Except.ok.inj h
    refine ⟨hcount, hledger, hedits.held, ?_⟩
    have hleaves := hconfirm pruned.2.2.start
    rw [hnone] at hleaves
    exact hleaves.symm
  · rw [if_neg hnone] at h ⊢
    rcases hwrite : pruned.2.2.write (confirmAll env account sent.1) with ⟨f | u, d'⟩
    · rw [hwrite] at h
      cases h
    · rw [hwrite] at h
      obtain rfl := Except.ok.inj h
      refine ⟨hcount, hledger, hedits.held, ?_⟩
      refine (hconfirm _).symm.trans (Device.write_commits_iff.1 ⟨⟨u, ?_⟩, ?_⟩) <;> rw [hwrite]

/-! ### What becomes of a copy -/

/-- What a pass has made of a copy of which a message was collected. `changes` were made to it
meanwhile, and `row` is what its row says in the end. -/
structure Treated (r : Replica) (changes : List Change) (answer : Except Failure String)
    (r' : Replica) (row : Option Standing) : Prop where
  fixed : r'.fixed = r.fixed
  get : r'.get = Change.overlay r.get changes
  unchanged : ¬ Change.Matter r.get changes → r'.generation = r.generation
  changed : Change.Matter r.get changes → r'.needsPush = true
  failed : ∀ f, answer = .error f → r'.needsPush = true
  stored : ∀ hash, answer = .ok hash → ¬ Change.Matter r.get changes →
    r'.phase = .settled ∧ r'.current = some hash ∧ row = some r'.toStanding

/-- From the collection of messages to the confirmation of those that were stored: what is held at
the start, after the collection, after the edits, and at the end. -/
structure Course (c : Cipher) (env : Env) (account : String) (topics : List Topic)
    (ps : List (Outgoing × Except Failure String)) (edits : List Edit) (h h₁ h₂ h' : Held) :
    Prop where
  nodup : topics.Nodup
  collected : Collected c env account topics h.copies (.ok (ps.map Prod.fst)) h₁.copies
  rows : h₁.database = h.database
  edited : h₁.edited edits = some h₂
  confirmed : h₂.useAll account (ps.filterMap (answerUse env)) = some h'

theorem generation_of_toStanding {r r' : Replica} (hfixed : r'.fixed = r.fixed)
    (h : r'.toStanding = r.toStanding) : r'.generation = r.generation :=
  Replica.generation_congr hfixed (congrArg Standing.seq h) (congrArg Standing.entries h)

/-- A copy whose message was collected, after the changes that were made to it since. -/
structure Pending (r : Replica) (changes : List Change) (r' : Replica) : Prop where
  fixed : r'.fixed = r.fixed
  get : r'.get = Change.overlay r.get changes
  unchanged : ¬ Change.Matter r.get changes → r'.phase = .sent ∧ r'.generation = r.generation
  changed : Change.Matter r.get changes → r'.phase = .edited

namespace Pending

variable {r r' q : Replica} {changes : List Change} {row : Option Standing}

theorem of_push {nonce : Bytes} {push : Push} (hneeds : r.needsPush = true)
    (hpush : (r.push c nonce).1 = .ok push) (h : (r.push c nonce).2.Overlaid changes r') :
    Pending r changes r' := by
  obtain ⟨-, -, hphase, hgen⟩ := Replica.push_sent hneeds hpush
  have hfixed := Replica.push_fixed c nonce r
  generalize (r.push c nonce).2 = r₁ at h hphase hgen hfixed
  have hget : r₁.get = r.get := congrArg Entries.value? (congrArg Generation.entries hgen)
  obtain ⟨hfixed', hget', hsame, hedited⟩ := h
  rw [hget] at hget' hsame hedited
  refine ⟨hfixed'.trans hfixed, hget', fun hnot => ?_, hedited⟩
  exact ⟨(congrArg Standing.phase (hsame hnot)).trans hphase,
    (generation_of_toStanding hfixed' (hsame hnot)).trans hgen⟩

theorem needsPush (h : Pending r changes r') : r'.needsPush = true := by
  have hphase : r'.phase = .edited ∨ r'.phase = .sent := by
    by_cases hmatter : Change.Matter r.get changes
    · exact .inl (h.changed hmatter)
    · exact .inr (h.unchanged hmatter).1
  rcases hphase with hp | hp <;> simp [Replica.needsPush, hp]

theorem keep (h : Pending r changes r') (k : Keeping) : Pending r changes (k.copy r') := by
  have hstanding := k.copy_toStanding r'
  have hphase := congrArg Standing.phase hstanding
  refine ⟨(k.copy_fixed r').trans h.fixed, ?_, fun hnot => ?_,
    fun hmatter => hphase.trans (h.changed hmatter)⟩
  · rw [← h.get]
    exact congrArg Entries.value? (congrArg Standing.entries hstanding)
  · obtain ⟨hsent, hgen⟩ := h.unchanged hnot
    exact ⟨hphase.trans hsent, (generation_of_toStanding (k.copy_fixed r') hstanding).trans hgen⟩

/-- What was not stored is pending, as it was. -/
theorem treated_failed (h : Pending r changes r') (f : Failure) (row : Option Standing) :
    Treated r changes (.error f) r' row where
  fixed := h.fixed
  get := h.get
  unchanged hnot := (h.unchanged hnot).2
  changed _ := h.needsPush
  failed _ _ := h.needsPush
  stored _ hok := by cases hok

/-- What was changed since is pending, whatever the answer. -/
theorem treated_changed (h : Pending r changes r') (hmatter : Change.Matter r.get changes)
    (answer : Except Failure String) (row : Option Standing) : Treated r changes answer r' row where
  fixed := h.fixed
  get := h.get
  unchanged hnot := absurd hmatter hnot
  changed _ := h.needsPush
  failed _ _ := h.needsPush
  stored _ _ hnot := absurd hmatter hnot

/-- What was stored and not changed since is settled. -/
theorem treated_stored (h : Pending r changes r') (hnot : ¬ Change.Matter r.get changes)
    {hash : String} (hfixed : q.fixed = r'.fixed) (hgen : q.generation = r'.generation)
    (hphase : q.phase = .settled) (hcurrent : q.current = some hash)
    (hrow : row = some q.toStanding) : Treated r changes (.ok hash) q row where
  fixed := hfixed.trans h.fixed
  get := by
    rw [← h.get]
    exact congrArg Entries.value? (congrArg Generation.entries hgen)
  unchanged _ := hgen.trans (h.unchanged hnot).2
  changed hmatter := absurd hmatter hnot
  failed _ herror := by cases herror
  stored hash' hok _ := by
    obtain rfl := Except.ok.inj hok
    exact ⟨hphase, hcurrent, hrow⟩

end Pending

theorem topic_of_mem_answerUse {u : Topic × Plan} {ps : List (Outgoing × Except Failure String)}
    (h : u ∈ ps.filterMap (answerUse env)) : ∃ p ∈ ps, ∃ hash, p.2 = .ok hash ∧
      u = (p.1.message.topic, .confirm env p.1.message hash) := by
  obtain ⟨⟨o, answer⟩, hp, huse⟩ := List.mem_filterMap.1 h
  cases answer with
  | error f => cases huse
  | ok hash =>
    obtain rfl := Option.some.inj huse
    exact ⟨_, hp, hash, rfl, rfl⟩

/-- What a copy that was sent becomes when the swarm has stored its message, if nothing has changed
since: it is settled, and saved. -/
theorem confirm_of_sent {h h' : Held} {topic : Topic} {r : Replica} {message : Message}
    {hash : String} (huse : h.use ⟨account, topic⟩ (.confirm env message hash) = some h')
    (hr : h.copies.find? ⟨account, topic⟩ = some (.ready r)) (hp : r.phase = .sent)
    (hseq : message.seq = r.seq) :
    ∃ r', h'.copies.find? ⟨account, topic⟩ = some (.ready r') ∧ r'.fixed = r.fixed ∧
      r'.generation = r.generation ∧ r'.phase = .settled ∧ r'.current = some hash ∧
      h'.database.data? ⟨account, topic⟩ = some (Standing.layout.put r'.toStanding) := by
  rcases Held.use_eq_some huse with ⟨rfl, hnone⟩ | ⟨q, r', k, hq, hplan, hcopies, hrows⟩
  · exact absurd hr (hnone r)
  obtain rfl : q = r := Slot.ready_unique hq hr
  obtain ⟨rfl, rfl⟩ := Prod.ext_iff.1 (Option.some.inj hplan)
  have hc := q.confirm_confirmed message.seq hash
  generalize q.confirm message.seq hash = x at hc hcopies hrows
  cases hc with
  | ignored hnot => exact absurd ⟨hp, hseq⟩ hnot
  | applied r' _ _ hphase hseq' hentries hcurrent hunsaved hfixed =>
    have hsaved : Keeping.ofUnsaved r' (message.time.getD env.now) =
        .save (message.time.getD env.now) := by rw [Keeping.ofUnsaved, hunsaved, if_pos rfl]
    have hdata := (Keeping.rows_eq_some hrows).2 ⟨account, topic⟩
    rw [if_pos rfl, hsaved] at hdata
    refine ⟨_, hcopies ▸ SortedMap.find?_insert_self _ _ _, ?_⟩
    rw [hsaved]
    exact ⟨hfixed, Replica.generation_congr hfixed hseq' hentries, hphase, hcurrent, hdata⟩

/-- A copy that was edited since its message was made does not hear of it. -/
theorem confirm_of_edited {h h' : Held} {topic : Topic} {r : Replica} {message : Message}
    {hash : String} (huse : h.use ⟨account, topic⟩ (.confirm env message hash) = some h')
    (hr : h.copies.find? ⟨account, topic⟩ = some (.ready r)) (hp : r.phase = .edited) :
    ∃ k : Keeping, h'.copies.find? ⟨account, topic⟩ = some (.ready (k.copy r)) := by
  rcases Held.use_eq_some huse with ⟨rfl, hnone⟩ | ⟨q, r', k, hq, hplan, hcopies, -⟩
  · exact absurd hr (hnone r)
  obtain rfl : q = r := Slot.ready_unique hq hr
  obtain ⟨rfl, rfl⟩ := Prod.ext_iff.1 (Option.some.inj hplan)
  have hc := q.confirm_confirmed message.seq hash
  generalize q.confirm message.seq hash = x at hc hcopies
  cases hc with
  | applied _ hsent => cases hp.symm.trans hsent
  | ignored => exact ⟨_, hcopies ▸ SortedMap.find?_insert_self _ _ _⟩

namespace Course

variable {topics : List Topic} {ps : List (Outgoing × Except Failure String)} {edits : List Edit}
  {h h₁ h₂ h' : Held} {p : Outgoing × Except Failure String}

/-- Every answer is to the message of another topic. -/
theorem nodup_topics (hcourse : Course c env account topics ps edits h h₁ h₂ h') :
    (ps.map (·.1.message.topic)).Nodup := by
  have hnodup := (hcourse.collected.sends hcourse.nodup rfl).2
  rwa [List.map_map] at hnodup

theorem nodup_uses (hcourse : Course c env account topics ps edits h h₁ h₂ h') :
    ((ps.filterMap (answerUse env)).map Prod.fst).Nodup := by
  refine nodup_map_filterMap ?_ hcourse.nodup_topics
  rintro ⟨o, _ | hash⟩ u hu
  · cases hu
  · obtain rfl := Option.some.inj hu
    rfl

/-- A copy whose message was not stored is as the edits have left it. -/
theorem confirmed_frame (hcourse : Course c env account topics ps edits h h₁ h₂ h') {topic : Topic}
    (hnone : ∀ p ∈ ps, p.1.message.topic = topic → ∃ f, p.2 = .error f) :
    h'.copies.find? ⟨account, topic⟩ = h₂.copies.find? ⟨account, topic⟩ ∧
      h'.database.data? ⟨account, topic⟩ = h₂.database.data? ⟨account, topic⟩ := by
  refine Held.useAll_frame hcourse.confirmed fun _ hmem => ?_
  obtain ⟨u, hu, rfl⟩ := List.mem_map.1 hmem
  obtain ⟨p, hp, hash, hok, rfl⟩ := topic_of_mem_answerUse hu
  obtain ⟨f, herror⟩ := hnone p hp rfl
  cases hok.symm.trans herror

/-- What the edits leave of a copy whose message was collected. -/
theorem pending (hcourse : Course c env account topics ps edits h h₁ h₂ h') (hp : p ∈ ps) :
    ∃ r n push r₂, h.copies.find? ⟨account, p.1.message.topic⟩ = some (.ready r) ∧
      (r.push c (env.nonce n)).1 = .ok push ∧
      p.1 = push.outgoing p.1.message.topic env.now ∧
      h₂.copies.find? ⟨account, p.1.message.topic⟩ = some (.ready r₂) ∧
      Pending r (Edit.changesOf ⟨account, p.1.message.topic⟩ edits) r₂ := by
  obtain ⟨-, r, n, push, hr, hneeds, hpush, hout, hr₁⟩ :=
    (hcourse.collected.sends hcourse.nodup rfl).1 p.1 (List.mem_map_of_mem hp)
  obtain ⟨r₂, hr₂, hover⟩ := Held.overlaid_edited hcourse.edited hr₁
  exact ⟨r, n, push, r₂, hr, hpush, hout, hr₂, .of_push hneeds hpush hover⟩

/-- Of each copy whose message was collected, a pass makes what its answer and its edits say. -/
theorem treated (hcourse : Course c env account topics ps edits h h₁ h₂ h') (hfits : h'.copies.Fit)
    (hp : p ∈ ps) :
    ∃ r n push r', h.copies.find? ⟨account, p.1.message.topic⟩ = some (.ready r) ∧
      (r.push c (env.nonce n)).1 = .ok push ∧
      p.1 = push.outgoing p.1.message.topic env.now ∧
      h'.copies.find? ⟨account, p.1.message.topic⟩ = some (.ready r') ∧
      Treated r (Edit.changesOf ⟨account, p.1.message.topic⟩ edits) p.2 r'
        (h'.database.standing? ⟨account, p.1.message.topic⟩) := by
  obtain ⟨r, n, push, r₂, hr, hpush, hout, hr₂, hpending⟩ := hcourse.pending hp
  refine ⟨r, n, push, ?_⟩
  rcases hanswer : p.2 with f | hash
  · have hnone : ∀ q ∈ ps, q.1.message.topic = p.1.message.topic → ∃ f, q.2 = .error f := by
      intro q hq htopic
      obtain rfl := List.inj_on_of_nodup_map hcourse.nodup_topics hq hp htopic
      exact ⟨f, hanswer⟩
    obtain ⟨hframe, -⟩ := hcourse.confirmed_frame hnone
    exact ⟨r₂, hr, hpush, hout, hframe.trans hr₂, hpending.treated_failed f _⟩
  · have hmem : (p.1.message.topic, Plan.confirm env p.1.message hash) ∈
        ps.filterMap (answerUse env) := by
      refine List.mem_filterMap.2 ⟨p, hp, ?_⟩
      rw [answerUse, stored?, hanswer]
      rfl
    obtain ⟨hb, ha, huse, hbefore, hafter, hdata⟩ :=
      Held.use_of_useAll hcourse.confirmed hcourse.nodup_uses hmem
    rw [hr₂] at hbefore
    -- An edit that matters opens a generation of edits, and such a copy is not confirmed.
    by_cases hmatter : Change.Matter r.get (Edit.changesOf ⟨account, p.1.message.topic⟩ edits)
    · obtain ⟨k, hr'⟩ := confirm_of_edited huse hbefore (hpending.changed hmatter)
      exact ⟨_, hr, hpush, hout, hafter.trans hr', (hpending.keep k).treated_changed hmatter _ _⟩
    · obtain ⟨hsent, hgen⟩ := hpending.unchanged hmatter
      have hseq : p.1.message.seq = r₂.seq := by
        rw [hout]
        exact (Replica.push_eq_ok hpush).2.1.trans (congrArg Generation.seq hgen).symm
      obtain ⟨r', hr', hfixed', hgen', hsettled, hcurrent, hrow⟩ :=
        confirm_of_sent huse hbefore hsent hseq
      have hfit := hfits _ r' (hafter.trans hr')
      have hrow' := Database.standing?_put hfit.words hfit.length (hdata.trans hrow)
      exact ⟨r', hr, hpush, hout, hafter.trans hr',
        hpending.treated_stored hmatter hfixed' hgen' hsettled hcurrent hrow'⟩

/-! ### The next collection -/

/-- What was written down before a pass still is after it. -/
theorem grows (hcourse : Course c env account topics ps edits h h₁ h₂ h') : h₁.Grows h' :=
  (Held.grows_edited hcourse.edited).trans (Held.grows_useAll hcourse.confirmed)

/-- A copy that was neither collected nor edited, and its row, stay as they are. -/
theorem frame (hcourse : Course c env account topics ps edits h h₁ h₂ h') {topic : Topic}
    (hnot : ∀ p ∈ ps, p.1.message.topic ≠ topic) (hnone : ∀ e ∈ edits, e.key ≠ ⟨account, topic⟩) :
    h'.copies.find? ⟨account, topic⟩ = h₁.copies.find? ⟨account, topic⟩ ∧
      h'.database.data? ⟨account, topic⟩ = h.database.data? ⟨account, topic⟩ := by
  obtain ⟨hcopy, hdata⟩ := hcourse.confirmed_frame fun p hp htopic => absurd htopic (hnot p hp)
  obtain ⟨hcopy₁, hdata₁⟩ := Held.edited_frame hcourse.edited hnone
  rw [hcourse.rows] at hdata₁
  exact ⟨hcopy.trans hcopy₁, hdata.trans hdata₁⟩

/-- After a pass the same topics are asked for messages, and perhaps topics of copies that were
edited. -/
theorem topics_after (hcourse : Course c env account topics ps edits h h₁ h₂ h') {identity : String}
    {dumped : List Topic} (htopics : topics = Write.publishedTopics account identity dumped)
    (hdumped : h.database.topicsOf account = .ok dumped) : ∃ dumped',
      h'.database.topicsOf account = .ok dumped' ∧
      (∀ topic ∈ topics, topic ∈ Write.publishedTopics account identity dumped') ∧
      ∀ topic ∈ Write.publishedTopics account identity dumped',
        topic ∈ topics ∨ ∃ e ∈ edits, e.key = ⟨account, topic⟩ := by
  obtain ⟨hlists, hrows⟩ := Database.topicsOf_ok hdumped
  rw [← hcourse.rows] at hlists hrows
  obtain ⟨dumped', hdumped'⟩ := (hcourse.grows.lists account hlists).topicsOf
  obtain ⟨-, hrows'⟩ := Database.topicsOf_ok hdumped'
  refine ⟨dumped', hdumped', ?_⟩
  unfold Write.publishedTopics at htopics ⊢
  by_cases hid : identity = account
  · rw [if_pos hid] at htopics ⊢
    subst htopics
    exact ⟨fun _ => id, fun _ => .inl⟩
  · rw [if_neg hid] at htopics ⊢
    subst htopics
    -- The topics of another account are those with a row: no row is lost, and only an edited copy
    -- and one that was collected, which had a row already, can have got one.
    refine ⟨fun topic hmem => (hrows' topic).2 (hcourse.grows.rows _ ((hrows topic).1 hmem)),
      fun topic hmem => or_iff_not_imp_right.2 fun hnone => ?_⟩
    by_cases hsent : ∃ p ∈ ps, p.1.message.topic = topic
    · obtain ⟨p, hp, rfl⟩ := hsent
      exact ((hcourse.collected.sends hcourse.nodup rfl).1 p.1 (List.mem_map_of_mem hp)).1
    · have hframe := (hcourse.frame (fun p hp htopic => hsent ⟨p, hp, htopic⟩)
        fun e he hkey => hnone ⟨e, he, hkey⟩).2
      rw [hrows, hcourse.rows, ← hframe]
      exact (hrows' topic).1 hmem

/-- A copy that was not edited has no message after a pass, or the one that was collected. -/
theorem unedited (hcourse : Course c env account topics ps edits h h₁ h₂ h') (hfits : h'.copies.Fit)
    {topic : Topic} (htopic : topic ∈ topics) (hnone : ∀ e ∈ edits, e.key ≠ ⟨account, topic⟩) :
    Slot.Quiet (h'.copies.find? ⟨account, topic⟩) ∨
      ∃ (r : Replica) (n : Nat) (push : Push) (r' : Replica),
      (r.push c (env.nonce n)).1 = .ok push ∧
      h'.copies.find? ⟨account, topic⟩ = some (.ready r') ∧ r'.fixed = r.fixed ∧
      r'.generation = r.generation := by
  by_cases hsent : ∃ p ∈ ps, p.1.message.topic = topic
  · obtain ⟨p, hp, rfl⟩ := hsent
    obtain ⟨r, n, push, r', -, hpush, -, hr', htreated⟩ := hcourse.treated hfits hp
    have hchanges : Edit.changesOf ⟨account, p.1.message.topic⟩ edits = [] := by
      rw [Edit.changesOf, List.filter_eq_nil_iff.2 (by simpa using hnone)]
      rfl
    rw [hchanges] at htreated
    exact .inr ⟨r, n, push, r', hpush, hr', htreated.fixed, htreated.unchanged id⟩
  · have hnot : ∀ p ∈ ps, p.1.message.topic ≠ topic := fun p hp htopic => hsent ⟨p, hp, htopic⟩
    have hquiet : Slot.Quiet (h.copies.find? ⟨account, topic⟩) := by
      refine (hcourse.collected.covers hcourse.nodup rfl htopic).resolve_right ?_
      rintro ⟨o, ho, htopic⟩
      obtain ⟨p, hp, rfl⟩ := List.mem_map.1 ho
      exact hnot p hp htopic
    have hkept : h₁.copies.find? ⟨account, topic⟩ = h.copies.find? ⟨account, topic⟩ := by
      refine (hcourse.collected.kept hcourse.nodup ⟨account, topic⟩).resolve_right ?_
      rintro ⟨r, n, hr, hneeds, -⟩
      rw [hquiet.2 r hr] at hneeds
      cases hneeds
    left
    rw [(hcourse.frame hnot hnone).1, hkept]
    exact hquiet

/-- A copy that was not edited does not keep messages from being collected. -/
theorem not_stuck (hc : c.Faithful) (henv : env.Supplied c limit) (henv' : env'.Supplied c limit)
    (hcourse : Course c env account topics ps edits h h₁ h₂ h') (hfits : h'.copies.Fit)
    {topic : Topic} (htopic : topic ∈ topics) (hnone : ∀ e ∈ edits, e.key ≠ ⟨account, topic⟩)
    (trouble : Trouble) : ¬ Slot.Stuck c env' (h'.copies.find? ⟨account, topic⟩) trouble := by
  rcases hcourse.unedited hfits htopic hnone with
    hquiet | ⟨r, n, push, r', hpush, hr', hfixed, hgen⟩
  · rintro (⟨hbroken, -⟩ | ⟨q, m, hq, hneeds, -⟩)
    · exact hquiet.1 hbroken
    · rw [hquiet.2 q hq] at hneeds
      cases hneeds
  · rw [hr']
    rintro (⟨hbroken, -⟩ | ⟨q, m, hq, -, hlong, -⟩)
    · cases hbroken
    · obtain rfl := Slot.ready.inj (Option.some.inj hq)
      have hlen := Replica.length_payload_le hc hpush (henv.nonces n) (henv'.nonces m) hfixed hgen
      exact absurd hlong (Nat.not_lt.2 hlen)

end Course

/-- The next collection has a message that tells what a copy of this topic holds. If it fails, then
since another copy, which was edited, has no message that is short enough. -/
def Again (c : Cipher) (env : Env) (account : String) (edits : List Edit) (topic : Topic)
    (r : Replica) (d : Device) : Prop :=
  (∃ os, (d.read (Write.collect env account)).1 = .ok os ∧
    ∃ o ∈ os, o.message.topic = topic ∧ o.message.Tells c r) ∨
  ∃ other q, other ≠ topic ∧ (∃ e ∈ edits, e.key = ⟨account, other⟩) ∧
    d.copies.find? ⟨account, other⟩ = some (.ready q) ∧ q.Outgrown c ∧
    (d.read (Write.collect env account)).1 = .error (.failed q.tooLong)

theorem Course.again (hc : c.Faithful) (henv : env.Supplied c limit) (henv' : env'.Supplied c limit)
    {topics : List Topic} {ps : List (Outgoing × Except Failure String)} {edits : List Edit}
    {h h₁ h₂ : Held} {d : Device} {identity : String} {dumped : List Topic}
    (hcourse : Course c env account topics ps edits h h₁ h₂ d.held) (hfits : d.copies.Fit)
    (hid : env'.identity = some identity)
    (htopics : topics = Write.publishedTopics account identity dumped)
    (hdumped : h.database.topicsOf account = .ok dumped) {topic : Topic} (htopic : topic ∈ topics)
    {r r' : Replica} {n : Nat} {push : Push}
    (hpush : (r.push c (env.nonce n)).1 = .ok push)
    (hr' : d.copies.find? ⟨account, topic⟩ = some (.ready r')) (hneeds : r'.needsPush = true)
    (hfixed : r'.fixed = r.fixed) (hgen : r'.generation = r.generation) :
    Again c env' account edits topic r d := by
  obtain ⟨dumped', hdumped', hback, hforth⟩ := hcourse.topics_after htopics hdumped
  have hlisted : d.database.topicsOf account = .ok dumped' := hdumped'
  obtain ⟨-, ⟨hnone | ⟨f, herror⟩, -⟩ | ⟨identity', dumped₁, hid', hdumped₁, hcollected⟩⟩ :=
    Write.collect_run henv'.engine account d
  · cases hnone.symm.trans hid
  · cases herror.symm.trans hlisted
  obtain rfl := Option.some.inj (hid.symm.trans hid')
  obtain rfl := Except.ok.inj (hlisted.symm.trans hdumped₁)
  have hnodup : (Write.publishedTopics account identity dumped').Nodup :=
    Write.nodup_publishedTopics hlisted
  unfold Again
  rcases hresult : (d.read (Write.collect env' account)).1 with trouble | os
  · right
    obtain ⟨other, hother, hstuck⟩ := hcollected.stuck hnodup hresult
    have hedit : ∃ e ∈ edits, e.key = ⟨account, other⟩ := by
      by_contra hnone
      have hnone : ∀ e ∈ edits, e.key ≠ ⟨account, other⟩ := fun e he hkey => hnone ⟨e, he, hkey⟩
      have hmem := (hforth other hother).resolve_right fun ⟨e, he, hkey⟩ => hnone e he hkey
      exact hcourse.not_stuck hc henv henv' hfits hmem hnone trouble hstuck
    rcases hstuck with ⟨hbroken, -⟩ | ⟨q, m, hq, -, hlong, rfl⟩
    · -- A lost copy was lost when it was edited.
      obtain ⟨e, he, hkey⟩ := hedit
      have hlost := (hcourse.grows.broken ⟨account, other⟩).1 hbroken
      exact absurd (hkey ▸ hlost) (Held.not_broken_of_edited hcourse.edited e he)
    · refine ⟨other, q, ?_, hedit, hq, Replica.outgrown_of_length hc (henv'.nonces m) hlong, rfl⟩
      rintro rfl
      obtain rfl : q = r' := Slot.ready_unique hq hr'
      have hlen := Replica.length_payload_le hc hpush (henv.nonces n) (henv'.nonces m) hfixed hgen
      exact absurd hlong (Nat.not_lt.2 hlen)
  · left
    refine ⟨os, rfl, ?_⟩
    obtain hquiet | ⟨o, ho, rfl⟩ := hcollected.covers hnodup hresult (hback topic htopic)
    · rw [hquiet.2 r' hr'] at hneeds
      cases hneeds
    obtain ⟨q, m, push', hq, -, hpush', ho', -⟩ := ((hcollected.sends hnodup hresult).1 o ho).2
    obtain rfl : q = r' := Slot.ready_unique hq hr'
    have htells := Message.tells_of_push hc (hfits _ q hq) (henv'.nonces m) hpush' ho' hfixed hgen
    exact ⟨o, ho, rfl, htells⟩

/-- A pass that does not fail neither loses an edit nor settles a copy too soon. A copy whose
message was not stored has it still, with the edits made meanwhile; without such edits the next
collection has the same again, unless it fails since another copy has been edited and has a message
that is too long. A copy whose message was stored is settled under the hash that the swarm has
answered, and its row says so; if it was edited meanwhile, it has a message again. -/
theorem retry_safe (hc : c.Faithful) (henv : env.Supplied c limit) (ht : t.Edits c limit ledger)
    (hfits : s.2.copies.Fit) (hfits' : (run env t account s).2.2.copies.Fit)
    (hrun : (run env t account s).1 = .ok report) :
    let collected := s.2.read (Write.collect env account)
    let s' := (run env t account s).2
    ∃ os edits, collected.1 = .ok os ∧ ledger s'.1 = ledger s.1 ++ edits ∧
      report.pushed + report.failed = os.length ∧
      ∀ p ∈ answers t account os (s.1, collected.2),
        let key : CopyKey := ⟨account, p.1.message.topic⟩
        let changes := Edit.changesOf key edits
        ∃ r r', s.2.copies.find? key = some (.ready r) ∧ p.1.message.Tells c r ∧
          s'.2.copies.find? key = some (.ready r') ∧
          Treated r changes p.2 r' (s'.2.database.standing? key) ∧
          ∀ f, p.2 = .error f → ¬ Change.Matter r.get changes →
            ∀ env', env'.Supplied c limit → env'.identity = env.identity →
              Again c env' account edits p.1.message.topic r s'.2 := by
  intro collected s'
  obtain ⟨os, edits, h₂, hos, hreport, hledger, hedited, hconfirmed⟩ := run_ok henv.engine ht hrun
  obtain ⟨hdb, ⟨-, ⟨f, hfailed⟩, -⟩ | ⟨identity, dumped, hid, hdumped, hcollected⟩⟩ :=
    Write.collect_run henv.engine account s.2
  · cases hfailed.symm.trans hos
  have hnodup : (Write.publishedTopics account identity dumped).Nodup :=
    Write.nodup_publishedTopics hdumped
  rw [hos] at hcollected
  have hcourse : Course c env account (Write.publishedTopics account identity dumped)
      (answers t account os (s.1, collected.2)) edits s.2.held collected.2.held h₂ s'.2.held :=
    ⟨hnodup, by rwa [map_fst_answers], hdb, hedited, hconfirmed⟩
  refine ⟨os, edits, hos, hledger, hreport, fun p hp => ?_⟩
  obtain ⟨r, n, push, r', hr, hpush, hout, hr', htreated⟩ := hcourse.treated hfits' hp
  have htells := Message.tells_of_push hc (hfits _ r hr) (henv.nonces n) hpush hout rfl rfl
  refine ⟨r, r', hr, htells, hr', htreated, fun f herror hnot env' henv' hid' => ?_⟩
  have htopic := ((hcourse.collected.sends hnodup rfl).1 p.1 (List.mem_map_of_mem hp)).1
  exact hcourse.again hc henv henv' hfits' (hid'.trans hid) rfl hdumped htopic hpush hr'
    (htreated.failed f herror) htreated.fixed (htreated.unchanged hnot)

theorem exists_answer {ps : List (Outgoing × Except Failure String)} {topic : Topic}
    {answer : Option String}
    (h : (topic, answer) ∈ ps.map fun p => (p.1.message.topic, p.2.toOption)) :
    ∃ p ∈ ps, p.1.message.topic = topic ∧ p.2.toOption = answer := by
  obtain ⟨p, hp, heq⟩ := List.mem_map.1 h
  exact ⟨p, hp, (Prod.ext_iff.1 heq).1, (Prod.ext_iff.1 heq).2⟩

/-- Of three messages one is not stored, and while another is sent, its copy is edited. -/
theorem retry_safe_three_copies :
    let c := Cipher.xchacha20Poly1305
    let env := Env.bare c Replica.defaultLimit "05"
    let edit (topic : Topic) (key : String) (value : Bytes) : Edit :=
      ⟨env, ⟨"05", topic⟩, [⟨key, some value⟩]⟩
    let t := Transport.scripted
      (fun topic => if topic = .contacts then .error (.transport "down") else .ok "h")
      fun topic => if topic = .userGroups then [edit .userGroups "b" [3]] else []
    let d := ((({} : Device).reload env "05" (List.replicate 32 0)).write (Edit.body
      [edit .contacts "a" [1], edit .userGroups "b" [2], edit .convoInfoVolatile "c" [3]])).2
    let s' := (run env t "05" ([], d)).2
    ∃ failed changed stored, s'.2.copies.find? ⟨"05", .contacts⟩ = some (.ready failed) ∧
      s'.2.copies.find? ⟨"05", .userGroups⟩ = some (.ready changed) ∧
      s'.2.copies.find? ⟨"05", .convoInfoVolatile⟩ = some (.ready stored) ∧
      failed.needsPush = true ∧ changed.get "b" = some [3] ∧ stored.phase = .settled ∧
      stored.current = some "h" := by
  intro c env edit t d s'
  have henv : env.Supplied c Replica.defaultLimit := Env.supplied_bare c Replica.defaultLimit "05"
  have ht : t.Edits c Replica.defaultLimit id := Transport.edits_scripted fun topic e he => by
    split at he
    · obtain rfl := List.mem_singleton.1 he
      rfl
    · cases he
  obtain ⟨hisOk, hfits, hfits', hanswers, hchanged, hunchanged⟩ :
      (run env t "05" ([], d)).1.isOk = true ∧ d.copies.Fit ∧ s'.2.copies.Fit ∧
        (answers t "05" ((d.read (Write.collect env "05")).1.toOption.getD [])
          ([], (d.read (Write.collect env "05")).2)).map
            (fun p => (p.1.message.topic, p.2.toOption)) =
              [(.contacts, none), (.convoInfoVolatile, some "h"), (.userGroups, some "h")] ∧
        Edit.changesOf ⟨"05", .userGroups⟩ s'.1 = [⟨"b", some [3]⟩] ∧
        Edit.changesOf ⟨"05", .convoInfoVolatile⟩ s'.1 = [] := by
    decide +kernel
  have hs' : (run env t "05" ([], d)).2 = s' := rfl
  -- The rest is true of any pass of which these facts hold.
  clear_value s' d t env
  obtain ⟨report, hrun⟩ := exists_of_isOk hisOk
  obtain ⟨os, edits, hos, hledger, -, hall⟩ := retry_safe Cipher.faithful_xchacha20Poly1305 henv ht
    hfits (hs' ▸ hfits') hrun
  rw [hs'] at hledger hall
  have hedits : s'.1 = edits := hledger
  rw [← hedits] at hall
  rw [hos] at hanswers
  obtain ⟨p₁, hp₁, htopic₁, herror⟩ := exists_answer (hanswers ▸ List.mem_cons_self)
  obtain ⟨p₂, hp₂, htopic₂, hstored⟩ := exists_answer
    (hanswers ▸ List.mem_cons_of_mem _ List.mem_cons_self)
  obtain ⟨p₃, hp₃, htopic₃, -⟩ := exists_answer
    (hanswers ▸ List.mem_cons_of_mem _ (List.mem_cons_of_mem _ List.mem_cons_self))
  obtain ⟨q₁, r₁, -, -, hr₁, htreated₁, -⟩ := hall p₁ hp₁
  obtain ⟨q₂, r₂, -, -, hr₂, htreated₂, -⟩ := hall p₂ hp₂
  obtain ⟨q₃, r₃, -, -, hr₃, htreated₃, -⟩ := hall p₃ hp₃
  rw [htopic₁] at hr₁
  rw [htopic₂] at hr₂ htreated₂
  rw [htopic₃] at hr₃ htreated₃
  rw [hunchanged] at htreated₂
  rw [hchanged] at htreated₃
  have hpending : r₁.needsPush = true := by
    cases h : p₁.2 with
    | error f => exact htreated₁.failed f h
    | ok hash =>
      rw [h] at herror
      cases herror
  obtain ⟨hsettled, hcurrent⟩ : r₂.phase = .settled ∧ r₂.current = some "h" := by
    cases h : p₂.2 with
    | error f =>
      rw [h] at hstored
      cases hstored
    | ok hash =>
      rw [h] at hstored
      obtain rfl := Option.some.inj hstored
      obtain ⟨hphase, hcurrent, -⟩ := htreated₂.stored "h" h id
      exact ⟨hphase, hcurrent⟩
  have hvalue : r₃.get "b" = some [3] := by
    rw [htreated₃.get]
    exact Function.update_self "b" (some [3]) q₃.get
  exact ⟨r₁, r₃, r₂, hr₁, hr₃, hr₂, hpending, hvalue, hsettled, hcurrent⟩

/-- An edit made while messages are sent can leave another copy without a message that is short
enough. Then the message that was not stored is not collected again. -/
theorem not_collected_again :
    let c := Cipher.xchacha20Poly1305
    let env := Env.bare c 200 "05"
    let edit (topic : Topic) (key : String) (value : Bytes) : Edit :=
      ⟨env, ⟨"05", topic⟩, [⟨key, some value⟩]⟩
    let t := Transport.scripted
      (fun topic => if topic = .contacts then .error (.transport "down") else .ok "h")
      fun topic => if topic = .userGroups then [edit .userGroups "g" (List.replicate 300 0)] else []
    let d := ((({} : Device).reload env "05" (List.replicate 32 0)).write
      (Edit.body [edit .contacts "a" [1], edit .userGroups "b" [2]])).2
    let collected := d.read (Write.collect env "05")
    let s' := (run env t "05" ([], d)).2
    t.Edits c 200 id ∧ (run env t "05" ([], d)).1.toOption = some ⟨1, 1, 0⟩ ∧
      (answers t "05" (collected.1.toOption.getD []) ([], collected.2)).map
        (fun p => (p.1.message.topic, p.2.toOption)) =
          [(.contacts, none), (.userGroups, some "h")] ∧
      (∀ e ∈ s'.1, e.key ≠ ⟨"05", .contacts⟩) ∧
      (s'.2.read (Write.collect env "05")).1.toOption = none := by
  intro c env edit t d collected s'
  refine ⟨Transport.edits_scripted fun topic e he => ?_, ?_⟩
  · split at he
    · obtain rfl := List.mem_singleton.1 he
      rfl
    · cases he
  · decide +kernel

end SyncPass

end AccountSync
