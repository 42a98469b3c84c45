import Mathlib.Data.List.Forall2
import AccountSync.Proofs.Device.Durability
import AccountSync.Proofs.Device.Publishing
import AccountSync.Proofs.Swarm.Steps
/-!
Collecting messages again and again. A collection may stop half way, because a message is too long
or the engine fails, and the copies before have then been pushed. But a push changes nothing of a
copy that others see (`Replica.outline_push`), so the next collection finds the same to publish: all
that succeed hand out the same (`Device.collections_agree`).
-/

namespace AccountSync

open Step

variable {c : Cipher} {limit : Nat} {env : Env} {account : String}

/-! ### What is seen of a copy -/

/-- What is seen of a copy from outside: all but how far the present generation has come on its way
to the swarm and to the database. -/
structure Outline where
  topic : Topic
  secret : Secret
  limit : Nat
  seq : Int
  entries : Entries
  current : Option String
  retired : SortedSet String
  needsPush : Bool
  deriving DecidableEq

namespace Replica

def outline (r : Replica) : Outline :=
  ⟨r.topic, r.secret, r.limit, r.seq, r.entries, r.current, r.retired, r.needsPush⟩

/-- What a push makes of a copy, and what it hands out. -/
theorem push_of_ok {r : Replica} {nonce : Bytes} {push : Push} (h : (r.push c nonce).1 = .ok push) :
    push = ⟨r.payload c nonce, r.seq, r.retired.keys⟩ ∧
      (r.payload c nonce).length ≤ r.limit ∧ (r.push c nonce).2.outline = r.outline := by
  obtain ⟨-, -, hfits⟩ := push_eq_ok h
  by_cases hp : r.phase = .edited
  · rw [push_of_edited c nonce hp hfits] at h ⊢
    refine ⟨(Except.ok.inj h).symm, hfits, ?_⟩
    have hneeds : (Phase.sent != .settled) = (Phase.edited != .settled) := by decide
    simp [outline, needsPush, hp, hneeds]
  · simp only [Replica.push, gt_iff_lt, Nat.not_lt.2 hfits, if_false, hp] at h ⊢
    exact ⟨(Except.ok.inj h).symm, hfits, rfl⟩

end Replica

/-- Nothing is seen of a copy that cannot be used. -/
def Slot.outline? : Slot → Option Outline
  | ready r => some r.outline
  | broken => none

/-- What is seen of what is loaded in a place. -/
def Copies.outline (cs : Copies) (key : CopyKey) : Option (Option Outline) :=
  (cs.find? key).map Slot.outline?

namespace Copies

variable {cs cs' : Copies} {key key' : CopyKey} {r r' : Replica}

theorem outline_of_ready (h : cs.find? key = some (.ready r)) :
    cs.outline key = some (some r.outline) := by
  simp [outline, h, Slot.outline?]

theorem ready_of_outline {o : Outline} (h : cs.outline key = some (some o)) :
    ∃ r, cs.find? key = some (.ready r) ∧ r.outline = o := by
  obtain ⟨slot, hslot, ho⟩ := Option.map_eq_some_iff.1 h
  cases slot with
  | broken => cases ho
  | ready r => exact ⟨r, hslot, Option.some.inj ho⟩

/-- A copy gives way to one that looks the same. -/
theorem outline_insert (hr : cs.find? key = some (.ready r)) (h : r'.outline = r.outline) :
    Copies.outline (cs.insert key (.ready r')) key' = cs.outline key' := by
  by_cases hkey : key' = key
  · subst hkey
    simp [outline, SortedMap.find?_insert_self, hr, Slot.outline?, h]
  · simp [outline, SortedMap.find?_insert_of_ne hkey]

end Copies

/-! ### Engines whose pushes may fail -/

/-- The engine pushes copies as `Replica.push` says, or it fails and leaves them alone. -/
def Engine.Pushes (e : Engine) (c : Cipher) : Prop :=
  ∀ nonce r, (∃ push, (r.push c nonce).1 = .ok push ∧
      e.push nonce r = (.ok push, (r.push c nonce).2)) ∨
    ∃ t, e.push nonce r = (.error t, r)

theorem Engine.pushes_plain (c : Cipher) (limit : Nat) : (plain c limit).Pushes c := by
  intro nonce r
  have hp := Replica.push_pushed c nonce r
  rcases hpush : r.push c nonce with ⟨f | push, r'⟩
  · rw [hpush] at hp
    obtain rfl : r' = r := by cases hp; rfl
    exact .inr ⟨.failed f, by simp only [plain, hpush]; rfl⟩
  · exact .inl ⟨push, rfl, by simp only [plain, hpush]; rfl⟩

/-- The engine that cannot push copies of one topic. -/
def Engine.withoutPushing (e : Engine) (topic : Topic) : Engine :=
  { e with
    push := fun nonce r =>
      if r.topic = topic then (.error (.brokeOff (some "fault")), r) else e.push nonce r }

theorem Engine.Pushes.withoutPushing {e : Engine} (he : e.Pushes c) (topic : Topic) :
    (e.withoutPushing topic).Pushes c := by
  intro nonce r
  by_cases htopic : r.topic = topic
  · exact .inr ⟨_, if_pos htopic⟩
  · have hsame : (e.withoutPushing topic).push nonce r = e.push nonce r := if_neg htopic
    rw [hsame]
    exact he nonce r

/-! ### One copy -/

/-- What a slot answers when its message is asked for. -/
def Slot.Answers (c : Cipher) (env : Env) (topic : Topic) (slot : Option Slot)
    (o : Option Outgoing) : Prop :=
  Slot.Quiet slot ∧ o = none ∨ ∃ r n push, slot = some (.ready r) ∧ r.needsPush = true ∧
    (r.push c (env.nonce n)).1 = .ok push ∧ o = some (push.outgoing topic env.now)

/-- Why there is no answer: the copy is lost, or the engine does not push it. -/
def Slot.Refuses (env : Env) (slot : Option Slot) : Prop :=
  slot = some .broken ∨ ∃ r n t, slot = some (.ready r) ∧ r.needsPush = true ∧
    (env.engine.push (env.nonce n) r).1 = .error t

/-- What comes of a copy whose message is asked for. -/
structure Asked (c : Cipher) (env : Env) (key : CopyKey) (cs cs' : Copies)
    (result : Except Trouble (Option Outgoing)) : Prop where
  frame : ∀ key', key' ≠ key → cs'.find? key' = cs.find? key'
  outline : ∀ key', cs'.outline key' = cs.outline key'
  answers : ∀ o, result = .ok o → Slot.Answers c env key.topic (cs.find? key) o
  refuses : ∀ t, result = .error t → (∃ f, t = .failed f) ∧ Slot.Refuses env (cs.find? key)

theorem Asked.of_ok {key : CopyKey} {cs : Copies} {o : Option Outgoing}
    (h : Slot.Answers c env key.topic (cs.find? key) o) : Asked c env key cs cs (.ok o) where
  frame _ _ := rfl
  outline _ := rfl
  answers _ ho := Except.ok.inj ho ▸ h
  refuses _ ht := by cases ht

theorem Asked.of_error {key : CopyKey} {cs : Copies} (f : Failure)
    (h : Slot.Refuses env (cs.find? key)) : Asked c env key cs cs (.error (.failed f)) where
  frame _ _ := rfl
  outline _ := rfl
  answers _ ho := by cases ho
  refuses _ ht := ⟨⟨f, (Except.error.inj ht).symm⟩, h⟩

namespace Write

/-- The message of one copy, if it is loaded and has changes to publish. -/
def ask (env : Env) (account : String) (topic : Topic) : Write (Option Outgoing) :=
  Option.join <$> use ⟨account, topic⟩ (publish? env ⟨account, topic⟩)

theorem ask_run (he : env.engine.Pushes c) (account : String) (topic : Topic) (w : Work) :
    ∃ result w', ask env account topic w = (result, w') ∧ stays w' = stays w ∧
      Asked c env ⟨account, topic⟩ w.device.copies w'.device.copies result := by
  let key : CopyKey := ⟨account, topic⟩
  cases hslot : w.device.copies.find? key with
  | none =>
    exact ⟨_, _, bind_run_ok (use_of_none _ hslot), rfl,
      .of_ok (.inl ⟨by simp [Slot.Quiet, hslot, key], rfl⟩)⟩
  | some slot =>
    cases slot with
    | broken =>
      exact ⟨_, _, bind_run_error (use_of_broken _ hslot), rfl, .of_error _ (.inl hslot)⟩
    | ready r =>
      have hsame : w.device.copies.insert key (.ready r) = w.device.copies :=
        SortedMap.insert_of_find? hslot
      cases hneeds : r.needsPush with
      | false =>
        refine ⟨_, _, bind_run_ok (use_of_ok hslot (publish?_of_settled env key hneeds w)), rfl, ?_⟩
        rw [settle, hsame]
        refine .of_ok (.inl ⟨⟨by simp [hslot, key], fun q hq => ?_⟩, rfl⟩)
        obtain rfl : r = q := Slot.ready_unique hslot hq
        exact hneeds
      | true =>
        have hbody := publish?_pushes env key hneeds w
        rcases he (env.nonce w.device.pushes) r with ⟨push, hok, hpush⟩ | ⟨t, hpush⟩ <;>
          rw [hpush] at hbody
        · refine ⟨_, _, bind_run_ok (use_of_ok hslot hbody), rfl, ?_, ?_, ?_, ?_⟩
          · intro key' hne
            exact SortedMap.find?_insert_of_ne hne
          · intro key'
            exact Copies.outline_insert hslot (Replica.push_of_ok hok).2.2
          · intro o ho
            exact .inr ⟨r, _, push, hslot, hneeds, hok, (Except.ok.inj ho).symm⟩
          · intro t ht
            cases ht
        · refine ⟨_, _, bind_run_error (use_of_failed hslot hbody), rfl, ?_⟩
          rw [settle, hsame]
          exact .of_error _ (.inr ⟨r, _, t, hslot, hneeds, by rw [hpush]⟩)

end Write

/-! ### All copies of an account -/

/-- What comes of the copies of several topics whose messages are asked for, told by what the copies
were before. -/
structure AskedAll (c : Cipher) (env : Env) (account : String) (topics : List Topic)
    (cs cs' : Copies) (result : Except Trouble (List (Option Outgoing))) : Prop where
  outline : ∀ key, cs'.outline key = cs.outline key
  answers : ∀ os, result = .ok os →
    List.Forall₂ (fun topic o => Slot.Answers c env topic (cs.find? ⟨account, topic⟩) o) topics os
  refuses : ∀ t, result = .error t → (∃ f, t = .failed f) ∧
    ∃ topic ∈ topics, Slot.Refuses env (cs.find? ⟨account, topic⟩)

namespace Write

theorem each_ask_run (he : env.engine.Pushes c) (account : String) {topics : List Topic}
    (hn : topics.Nodup) (w : Work) :
    ∃ result w', each (ask env account) topics w = (result, w') ∧ stays w' = stays w ∧
      AskedAll c env account topics w.device.copies w'.device.copies result := by
  induction topics generalizing w with
  | nil =>
    refine ⟨_, _, rfl, rfl, fun _ => rfl, fun os hos => ?_, fun t ht => by cases ht⟩
    obtain rfl := Except.ok.inj hos
    exact .nil
  | cons topic topics ih =>
    obtain ⟨hnot, hn⟩ := List.nodup_cons.1 hn
    obtain ⟨result, w₁, hone, hstays₁, hasked⟩ := ask_run he account topic w
    obtain ⟨results, w₂, hrest, hstays₂, hall⟩ := ih hn w₁
    -- What is asked later was not touched before.
    have hframe : ∀ topic' ∈ topics, w₁.device.copies.find? ⟨account, topic'⟩ =
        w.device.copies.find? ⟨account, topic'⟩ := fun topic' hmem =>
      hasked.frame _ (CopyKey.ne_of_notMem hnot hmem)
    rw [each]
    cases result with
    | error t =>
      refine ⟨_, _, bind_run_error hone, hstays₁, hasked.outline, fun os hos => (by cases hos),
        fun t' ht' => ?_⟩
      obtain rfl := Except.error.inj ht'
      obtain ⟨hfailed, hrefuses⟩ := hasked.refuses t rfl
      exact ⟨hfailed, topic, List.mem_cons_self, hrefuses⟩
    | ok o =>
      have houtline : ∀ key, w₂.device.copies.outline key = w.device.copies.outline key :=
        fun key => (hall.outline key).trans (hasked.outline key)
      rw [bind_run_ok hone]
      cases results with
      | error t =>
        refine ⟨_, _, bind_run_error hrest, hstays₂.trans hstays₁, houtline,
          fun os hos => (by cases hos), fun t' ht' => ?_⟩
        obtain rfl := Except.error.inj ht'
        obtain ⟨hfailed, topic', hmem, hrefuses⟩ := hall.refuses t rfl
        exact ⟨hfailed, topic', List.mem_cons_of_mem _ hmem, hframe topic' hmem ▸ hrefuses⟩
      | ok os =>
        refine ⟨_, _, bind_run_ok hrest, hstays₂.trans hstays₁, houtline, fun os' hos' => ?_,
          fun t' ht' => by cases ht'⟩
        obtain rfl := Except.ok.inj hos'
        have hlater := (List.forall₂_and_left _ _).2 ⟨hframe, hall.answers os rfl⟩
        exact .cons (hasked.answers o rfl) (hlater.imp fun topic' o' h => h.1 ▸ h.2)

end Write

/-! ### One collection -/

/-- The topics whose copies are asked for messages, if it comes to that: there is an identity, and
the account's rows can be listed. -/
def Device.askedTopics (d : Device) (identity : Option String) (account : String) :
    Option (List Topic) :=
  match identity, d.database.topicsOf account with
  | some identity, .ok dumped => some (Write.publishedTopics account identity dumped)
  | _, _ => none

theorem Device.askedTopics_sublist {d : Device} {identity : Option String} {topics : List Topic}
    (h : d.askedTopics identity account = some topics) : topics.Sublist Topic.all := by
  unfold askedTopics at h
  split at h
  · rename_i hdumped
    obtain rfl := Option.some.inj h
    exact Write.publishedTopics_sublist hdumped
  · cases h

/-- What comes of a collection. -/
structure Collection (c : Cipher) (env : Env) (account : String) (d d' : Device)
    (result : Except Trouble (List Outgoing)) : Prop where
  database : d'.database = d.database
  outline : ∀ key, d'.copies.outline key = d.copies.outline key
  messages : ∀ os, result = .ok os → ∃ topics answers, d.askedTopics env.identity account = some topics ∧
    os = answers.filterMap id ∧ List.Forall₂
      (fun topic o => Slot.Answers c env topic (d.copies.find? ⟨account, topic⟩) o) topics answers
  refuses : ∀ t, result = .error t → (∃ f, t = .failed f) ∧
    ∀ topics, d.askedTopics env.identity account = some topics →
      ∃ topic ∈ topics, Slot.Refuses env (d.copies.find? ⟨account, topic⟩)

/-- With no identity, or with rows that cannot be listed, a collection fails before it asks. -/
theorem Device.collect_stops {d : Device} (h : d.askedTopics env.identity account = none) :
    ∃ f, Write.collect env account d.start = (.error (.failed f), d.start) := by
  cases hid : env.identity with
  | none =>
    refine ⟨.noUser, ?_⟩
    simp only [Write.collect, hid]
    rfl
  | some identity =>
    cases hdumped : d.database.topicsOf account with
    | error f =>
      have hrows : Write.rows (fun db => return (← db.topicsOf account, db)) d.start =
          (.error (.failed f), d.start) :=
        Write.rows_of_error (by simp only [start, hdumped]; rfl)
      refine ⟨f, ?_⟩
      simp only [Write.collect, hid]
      exact bind_run_error hrows
    | ok dumped =>
      simp only [hid, askedTopics, hdumped, reduceCtorEq] at h

/-- Else it asks for the message of each topic. -/
theorem Device.collect_asks {d : Device} {topics : List Topic}
    (h : d.askedTopics env.identity account = some topics) :
    Write.collect env account d.start = (each (Write.ask env account) topics >>= fun answers => do
      Write.changeStats (·.generate (answers.filterMap id).length)
      return answers.filterMap id) d.start := by
  cases hid : env.identity with
  | none =>
    rw [hid] at h
    cases h
  | some identity =>
    cases hdumped : d.database.topicsOf account with
    | error f =>
      simp only [hid, askedTopics, hdumped, reduceCtorEq] at h
    | ok dumped =>
      simp only [hid, askedTopics, hdumped] at h
      obtain rfl := Option.some.inj h
      have hrows : Write.rows (fun db => return (← db.topicsOf account, db)) d.start =
          (.ok dumped, d.start) :=
        Write.rows_of_ok (by simp only [start, hdumped]; rfl)
      simp only [Write.collect, hid]
      exact bind_run_ok hrows

theorem Device.collection (he : env.engine.Pushes c) (account : String) (d : Device) :
    Collection c env account d (d.read (Write.collect env account)).2
      (d.read (Write.collect env account)).1 := by
  cases htopics : d.askedTopics env.identity account with
  | none =>
    obtain ⟨f, hrun⟩ := collect_stops htopics
    simp only [read, hrun]
    refine ⟨rfl, fun _ => rfl, fun os hos => (by cases hos), fun t ht => ?_⟩
    refine ⟨⟨f, (Except.error.inj ht).symm⟩, fun topics h => ?_⟩
    rw [htopics] at h
    cases h
  | some topics =>
    have hn := (askedTopics_sublist htopics).nodup (by decide)
    obtain ⟨result, w, heach, hstays, hall⟩ := Write.each_ask_run he account hn d.start
    have hdatabase : w.device.database = d.database := congrArg Prod.snd hstays
    cases result with
    | error t =>
      simp only [read, (collect_asks htopics).trans (bind_run_error heach)]
      refine ⟨hdatabase, hall.outline, fun os hos => (by cases hos), fun t' ht' => ?_⟩
      obtain rfl := Except.error.inj ht'
      obtain ⟨hfailed, hrefuses⟩ := hall.refuses t rfl
      refine ⟨hfailed, fun topics' h => ?_⟩
      obtain rfl := Option.some.inj (h.symm.trans htopics)
      exact hrefuses
    | ok answers =>
      simp only [read, (collect_asks htopics).trans (bind_run_ok heach)]
      refine ⟨hdatabase, hall.outline, fun os hos => ?_, fun t ht => by cases ht⟩
      obtain rfl := Except.ok.inj hos
      exact ⟨_, answers, htopics, rfl, hall.answers answers rfl⟩

/-! ### Many collections -/

/-- What is known of a message: its topic, its number, what a copy reads in it, its mailbox, and the
stored messages that it makes superfluous. -/
structure Notice where
  topic : Topic
  seq : Int
  content : Option Generation
  mailbox : Nat
  superseded : List String
  deriving DecidableEq

namespace Copies

/-- A message as the copy of its topic understands it. -/
def notice (c : Cipher) (cs : Copies) (account : String) (o : Outgoing) : Notice where
  topic := o.message.topic
  seq := o.message.seq
  content := ((cs.find? ⟨account, o.message.topic⟩).bind Slot.copy?).bind
    (·.read? c o.message.payload)
  mailbox := o.message.topic.mailbox
  superseded := o.superseded

/-- What is to be published of a topic: all that its copy holds, if that has changes. -/
def due (cs : Copies) (account : String) (topic : Topic) : Option Notice :=
  match cs.find? ⟨account, topic⟩ with
  | some (.ready r) =>
    if r.needsPush then some ⟨topic, r.seq, some r.generation, topic.mailbox, r.retired.keys⟩
    else none
  | some .broken | none => none

variable {cs cs' : Copies} {topic : Topic} {o : Option Outgoing}

/-- What copies answer is what copies that look the same have to publish. -/
theorem due_of_answers (hc : c.Faithful) (hnonces : ∀ n, (env.nonce n).length = Cipher.nonceLength)
    (hfit : cs.Fit) (hsame : ∀ key, cs'.outline key = cs.outline key)
    (h : Slot.Answers c env topic (cs'.find? ⟨account, topic⟩) o) :
    o.map (cs.notice c account) = cs.due account topic ∧
      ∀ x ∈ o, ∃ r, cs.find? ⟨account, x.message.topic⟩ = some (.ready r) ∧
        x.message.payload.length ≤ r.limit := by
  rcases h with ⟨⟨hbroken, hquiet⟩, rfl⟩ | ⟨r', n, push, hslot, hneeds, hpush, rfl⟩
  · refine ⟨?_, fun x hx => by cases hx⟩
    unfold due
    split
    · rename_i r hslot
      have hlook := hsame ⟨account, topic⟩
      rw [outline_of_ready hslot] at hlook
      obtain ⟨r', hslot', hr'⟩ := ready_of_outline hlook
      have hneeds : r.needsPush = false :=
        (congrArg Outline.needsPush hr').symm.trans (hquiet r' hslot')
      simp [hneeds]
    · rfl
    · rfl
  · obtain ⟨rfl, hlimit, -⟩ := Replica.push_of_ok hpush
    have hlook := hsame ⟨account, topic⟩
    rw [outline_of_ready hslot] at hlook
    obtain ⟨r, hr, hrr'⟩ := ready_of_outline hlook.symm
    simp only [Replica.outline, Outline.mk.injEq] at hrr'
    obtain ⟨htopic, hsecret, hlim, hseq, hentries, -, hretired, hneeds'⟩ := hrr'
    have hgen : r'.generation = r.generation := by
      simp only [Replica.generation, htopic, hseq, hentries]
    have hread : r.read? c (r'.payload c (env.nonce n)) = some r'.generation :=
      Replica.read?_push hc (hgen ▸ (hfit _ r hr).generation_words)
        (hgen ▸ (hfit _ r hr).generation_length) (hnonces n) hpush htopic hsecret
    refine ⟨?_, ?_⟩
    · simp only [due, hr, hneeds', hneeds, if_true, Option.map_some, notice, Push.outgoing,
        Option.bind_some, Slot.copy?, hread, hgen, hseq, hretired]
    · intro x hx
      obtain rfl := Option.some.inj hx
      exact ⟨r, hr, hlim ▸ hlimit⟩

end Copies

/-- Collects the messages of an account once in each of some surroundings, with nothing in between:
what each collection answers, and the device after it. -/
def Device.collections (account : String) :
    Device → List Env → List (Except Trouble (List Outgoing) × Device)
  | _, [] => []
  | d, env :: envs =>
    let x := d.read (Write.collect env account)
    x :: collections account x.2 envs

/-- The surroundings of a collection: an identity, an engine whose pushes may fail, and nonces of the
length that the cipher needs. -/
structure Env.Collects (c : Cipher) (identity : Option String) (env : Env) : Prop where
  identity : env.identity = identity
  engine : env.engine.Pushes c
  nonces : ∀ n, (env.nonce n).length = Cipher.nonceLength

/-- The messages are what the copies of some topics have to publish, topic after topic, and none is too
long. -/
structure Copies.Publishes (c : Cipher) (cs : Copies) (account : String) (topics : List Topic)
    (os : List Outgoing) : Prop where
  notices : os.map (cs.notice c account) = topics.filterMap (cs.due account)
  fits : ∀ o ∈ os, ∃ r, cs.find? ⟨account, o.message.topic⟩ = some (.ready r) ∧
    o.message.payload.length ≤ r.limit

theorem Copies.publishes_of_answers (hc : c.Faithful)
    (hnonces : ∀ n, (env.nonce n).length = Cipher.nonceLength) {cs cs' : Copies} (hfit : cs.Fit)
    (hsame : ∀ key, cs'.outline key = cs.outline key) {topics : List Topic}
    {answers : List (Option Outgoing)} (h : List.Forall₂
      (fun topic o => Slot.Answers c env topic (cs'.find? ⟨account, topic⟩) o) topics answers) :
    cs.Publishes c account topics (answers.filterMap id) := by
  induction h with
  | nil => exact ⟨rfl, fun o ho => by cases ho⟩
  | @cons topic o topics answers ho _ ih =>
    obtain ⟨hdue, hfits⟩ := due_of_answers hc hnonces hfit hsame ho
    obtain ⟨ihdue, ihfits⟩ := ih
    cases o with
    | none =>
      rw [Option.map_none] at hdue
      exact ⟨by simpa [← hdue] using ihdue, ihfits⟩
    | some x =>
      rw [Option.map_some] at hdue
      exact ⟨by simpa [← hdue] using ihdue, List.forall_mem_cons.2 ⟨hfits x rfl, ihfits⟩⟩

/-- Collections in a row of which some fail, because a message is too long or the engine does not push
a copy, change nothing that is seen of any copy, and no row. Those that do not fail hand out the same
messages but for their payloads, topic after topic, and no payload is too long. -/
theorem Device.collections_agree (hc : c.Faithful) (d : Device) (hfit : d.copies.Fit)
    (account : String) (identity : Option String) (envs : List Env)
    (henvs : ∀ env ∈ envs, env.Collects c identity) :
    ∃ topics : List Topic, topics.Sublist Topic.all ∧
      ∀ x ∈ d.collections account envs,
        x.2.database = d.database ∧ (∀ key, x.2.copies.outline key = d.copies.outline key) ∧
        ∀ os, x.1 = .ok os → d.copies.Publishes c account topics os := by
  refine ⟨(d.askedTopics identity account).getD [], ?_, ?_⟩
  · cases htopics : d.askedTopics identity account with
    | none => exact List.nil_sublist _
    | some topics => exact askedTopics_sublist htopics
  -- Every collection starts on a device that looks like the first one.
  suffices hall : ∀ (envs : List Env) (d' : Device), (∀ env ∈ envs, env.Collects c identity) →
      d'.database = d.database → (∀ key, d'.copies.outline key = d.copies.outline key) →
      ∀ x ∈ d'.collections account envs,
        x.2.database = d.database ∧ (∀ key, x.2.copies.outline key = d.copies.outline key) ∧
        ∀ os, x.1 = .ok os →
          d.copies.Publishes c account ((d.askedTopics identity account).getD []) os from
    hall envs d henvs rfl fun _ => rfl
  intro envs
  induction envs with
  | nil =>
    intro d' _ _ _ x hx
    cases hx
  | cons env envs ih =>
    intro d' henvs hdatabase hsame x hx
    obtain ⟨henv, henvs⟩ := List.forall_mem_cons.1 henvs
    have h := d'.collection henv.engine account
    have hdatabase' := h.database.trans hdatabase
    have hsame' := fun key => (h.outline key).trans (hsame key)
    rcases List.mem_cons.1 hx with rfl | hx
    · refine ⟨hdatabase', hsame', fun os hos => ?_⟩
      obtain ⟨topics, answers, htopics, rfl, hanswers⟩ := h.messages os hos
      have htopics : d.askedTopics identity account = some topics := by
        simpa only [askedTopics, hdatabase, henv.identity] using htopics
      rw [htopics]
      exact Copies.publishes_of_answers hc henv.nonces hfit hsame hanswers
    · exact ih _ henvs hdatabase' hsame' x hx

/-- A profile and contacts with edits are collected four times. The engine fails on the contacts the
first time, when the profile has been pushed already, and on the profile the third time. The two
other collections hand out the same. -/
theorem Device.collections_agree_failing_between :
    let copy topic : Replica := (Replica.fresh topic default).write "k" (some [1])
    let d : Device :=
      { copies := SortedMap.ofList [(⟨"05", .userProfile⟩, .ready (copy .userProfile)),
          (⟨"05", .contacts⟩, .ready (copy .contacts))] }
    let env := Env.bare .xchacha20Poly1305 Replica.defaultLimit "05"
    let failing topic : Env := { env with engine := env.engine.withoutPushing topic }
    let made := d.collections "05" [failing .contacts, env, failing .userProfile, env]
    made.map (fun x => x.1.isOk) = [false, true, false, true] ∧
      ∀ x ∈ made, ∀ y ∈ made, ∀ os os', x.1 = .ok os → y.1 = .ok os' →
        os.map (d.copies.notice .xchacha20Poly1305 "05") =
          os'.map (d.copies.notice .xchacha20Poly1305 "05") := by
  intro copy d env failing made
  have hplain : env.Collects .xchacha20Poly1305 (some "05") :=
    ⟨rfl, Engine.pushes_plain _ _, fun n => Bytes.length_ofNat Cipher.nonceLength n⟩
  have hfailing : ∀ topic, (failing topic).Collects .xchacha20Poly1305 (some "05") := fun topic =>
    ⟨rfl, hplain.engine.withoutPushing topic, hplain.nonces⟩
  obtain ⟨topics, -, hall⟩ := collections_agree Cipher.faithful_xchacha20Poly1305 d
    (by decide +kernel) "05" (some "05") [failing .contacts, env, failing .userProfile, env]
    (by simp [hplain, hfailing])
  refine ⟨by decide +kernel, fun x hx y hy os os' hos hos' => ?_⟩
  rw [((hall x hx).2.2 os hos).notices, ((hall y hy).2.2 os' hos').notices]

end AccountSync
