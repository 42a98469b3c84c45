import Mathlib.Data.List.Nodup
import Mathlib.Data.List.Perm.Subperm
import AccountSync.Device.Status
import AccountSync.Proofs.Device.Recording
/-!
Nothing that is to be published is missed. Whatever a device goes through between two starts of the
program, what it has to publish can be found (`Device.Reached.findable`); so a collection hands out a
message for every copy of an account that has changes, also of an account that is not the device's
own, and a sync is needed if and only if there is something to collect
(`Device.collects_all_changes`).
-/

namespace AccountSync

open Step

variable {c : Cipher} {own account : String} {d d' : Device}

/-! ### What may happen -/

namespace Device

/-- What a device goes through: copies are loaded and dropped, messages are collected, and the swarm's
answers are passed on, one by one or in a write that saves the copies; and there are other writes. A
write in good order that commits may do anything, one that fails may even be out of order. -/
inductive Next (c : Cipher) (own : String) : Device → Device → Prop where
  | load {d : Device} (env : Env) (account : String) (secret : Option Bytes) :
      env.engine.Fallible c → Next c own d (d.read (Write.load env account secret)).2
  | commit {d : Device} {α β : Type} (body : Task α β) (result : β) : body.Orderly c own →
      (d.write body.run).1 = .ok result → Next c own d (d.write body.run).2
  | rollback {d : Device} {α β : Type} (body : Task α β) (f : Failure) :
      (d.write body.run).1 = .error (.failed f) → Next c own d (d.write body.run).2
  | collect {d : Device} (env : Env) (account : String) :
      env.engine.Fallible c → Next c own d (d.read (Write.collect env account)).2
  | confirm {d : Device} (env : Env) (account : String) (message : Message) (hash : String) :
      env.engine.Fallible c → Next c own d (d.read (Write.confirm env account message hash)).2
  | confirmAll {d : Device} (env : Env) (account : String) (stored : List SyncPass.Stored) :
      env.engine.Fallible c → Next c own d (d.write (SyncPass.confirmAll env account stored)).2
  | clear {d : Device} : Next c own d (d.read Write.clear).2

/-- What can come of a device that has nothing loaded, with rows that can be fetched. -/
inductive Reached (c : Cipher) (own : String) : Device → Prop where
  | start {d : Device} : d.copies = ∅ → (∀ account, d.database.Fetches account) → Reached c own d
  | next {d d' : Device} : Reached c own d → Next c own d d' → Reached c own d'

end Device

/-! ### Without new rows -/

/-- What is findable stays so while the rows are the same, and no copy is lost or gets something to
publish. -/
theorem Held.Findable.of_quieter {h h' : Held} (hf : h.Findable own)
    (hdatabase : h'.database = h.database)
    (hlost : ∀ key, h'.copies.find? key = some .broken → h.copies.find? key = some .broken)
    (hready : ∀ key r', h'.copies.find? key = some (.ready r') → ∃ r,
      h.copies.find? key = some (.ready r) ∧ (r'.needsPush = true → r.needsPush = true)) :
    h'.Findable own where
  whole key hbroken := hf.whole key (hlost key hbroken)
  rows key r' hr' hkey hneeds := by
    obtain ⟨r, hr, hquieter⟩ := hready key r' hr'
    rw [hdatabase]
    exact hf.rows key r hr hkey (hquieter hneeds)
  fetches account := hdatabase ▸ hf.fetches account

/-- Copies that look the same are as findable. -/
theorem Held.Findable.of_outline {h h' : Held} (hf : h.Findable own)
    (hdatabase : h'.database = h.database)
    (hsame : ∀ key, h'.copies.outline key = h.copies.outline key) : h'.Findable own := by
  refine hf.of_quieter hdatabase (fun key hbroken => ?_) fun key r' hr' => ?_
  · have hlook : h.copies.outline key = some none := by
      rw [← hsame key]
      simp only [Copies.outline, hbroken, Option.map_some, Slot.outline?]
    obtain ⟨slot, hslot, hnone⟩ := Option.map_eq_some_iff.1 hlook
    cases slot with
    | ready r => cases hnone
    | broken => exact hslot
  · obtain ⟨r, hr, hlook⟩ := Copies.ready_of_outline
      ((hsame key).symm.trans (Copies.outline_of_ready hr'))
    have hneeds : r.needsPush = r'.needsPush := congrArg Outline.needsPush hlook
    exact ⟨r, hr, fun h => hneeds.trans h⟩

/-- A copy is changed in its place. -/
theorem Held.Findable.adjust {h : Held} (hf : h.Findable own) (key : CopyKey)
    {f : Replica → Replica} (hquieter : ∀ r, (f r).needsPush = true → r.needsPush = true) :
    (⟨h.copies.adjust key f, h.database⟩ : Held).Findable own := by
  cases hslot : h.copies.find? key with
  | none =>
    simp only [Copies.adjust, hslot]
    exact hf
  | some slot =>
    cases slot with
    | broken => exact absurd hslot (hf.whole key)
    | ready r =>
      rw [Copies.adjust_of_ready f hslot]
      exact hf.insert (.refl _) fun hkey hneeds => hf.rows key r hslot hkey (hquieter r hneeds)

theorem Held.Findable.dropping (hf : d.held.Findable own) (gone : List String) :
    (d.dropping gone).held.Findable own := by
  have hslot : ∀ key slot, (d.dropping gone).copies.find? key = some slot →
      d.copies.find? key = some slot := by
    intro key slot hslot
    rw [Device.dropping, Copies.find?_foldl_without] at hslot
    split at hslot
    · cases hslot
    · exact hslot
  exact hf.of_quieter rfl (fun key => hslot key .broken) fun key r hr => ⟨r, hslot key _ hr, id⟩

/-! ### Answers of the swarm -/

namespace SyncPass

variable {e : Engine} {env : Env}

/-- An answer of the swarm gives a copy nothing to publish. -/
theorem needsPush_tell (he : e.Upright) (s : Stored) {r : Replica}
    (h : (tell e s r).needsPush = true) : r.needsPush = true := by
  have hsaved : ∀ q : Replica, (if q.unsaved then (e.save q).2 else q).needsPush = q.needsPush := by
    intro q
    split
    · rw [Replica.needsPush, phase_save he, Replica.needsPush]
    · rfl
  unfold tell at h
  rcases he.confirm s.outgoing.message.seq s.hash r with hconfirm | ⟨t, hconfirm⟩ <;>
    rw [hconfirm] at h
  · rw [hsaved] at h
    have hc := Replica.confirm_confirmed r s.outgoing.message.seq s.hash
    generalize r.confirm s.outgoing.message.seq s.hash = x at h hc
    cases hc with
    | applied q _ _ hphase =>
      rw [Replica.needsPush, hphase] at h
      cases h
    | ignored => exact h
  · exact h

theorem findable_tellAll (he : e.Upright) (account : String) : ∀ (stored : List Stored) {h : Held},
    h.Findable own → (⟨tellAll e account stored h.copies, h.database⟩ : Held).Findable own
  | [], _, hf => hf
  | s :: rest, _, hf =>
    findable_tellAll he account rest (hf.adjust ⟨account, s.outgoing.message.topic⟩ fun _ =>
      needsPush_tell he s)

theorem tellUse_records (he : env.engine.Upright) (account : String) (s : Stored) :
    Use.Records own ⟨account, s.outgoing.message.topic⟩ (tellUse env account s) := by
  rintro - ⟨r, w⟩ a s' rfl hrun
  obtain ⟨hleft, -⟩ := tellUse_ends env account s r w
  rw [hrun] at hleft
  obtain rfl : s' = (tell env.engine s r, w) := hleft
  exact ⟨rfl, .refl _, fun _ hneeds => .inl (needsPush_tell he s hneeds)⟩

end SyncPass

namespace Write

variable {env : Env}

theorem confirm_safe (he : env.engine.Upright) (account : String) (s : SyncPass.Stored) :
    Safe own (confirm env account s.outgoing.message s.hash) := by
  refine Gives.bind (use_safe (SyncPass.tellUse_records he account s)) fun confirmed =>
    Safe.of_silent ?_
  cases confirmed with
  | none => exact Silent.pure none
  | some confirmed =>
    obtain ⟨applied, dump⟩ := confirmed
    cases applied <;> cases dump <;> exact fun _ => rfl

theorem store_safe (dump : Dump) : Safe own (store dump) := by
  intro w u w' hw hrun
  cases hup : w.tx.database.upsert dump with
  | error f =>
    rw [store_of_error hup] at hrun
    cases hrun
  | ok db =>
    rw [store_of_ok hup] at hrun
    obtain rfl := congrArg Prod.snd hrun
    obtain ⟨hgrows, -⟩ := Database.grows_upsert hup
    exact ⟨hw.whole, fun key r hr hkey hneeds => hgrows.rows key (hw.rows key r hr hkey hneeds),
      fun account => hgrows.fetches account (hw.fetches account)⟩

theorem confirmAll_safe (he : env.engine.Upright) (account : String) :
    ∀ stored : List SyncPass.Stored, Safe own (SyncPass.confirmAll env account stored)
  | [] => Safe.of_silent (Silent.pure ())
  | s :: rest => by
    rw [SyncPass.confirmAll_cons]
    refine Gives.bind (Gives.bind (confirm_safe he account s) fun dump => ?_) fun _ =>
      confirmAll_safe he account rest
    cases dump with
    | none => exact Safe.of_silent (Silent.pure ())
    | some dump => exact store_safe dump

end Write

/-! ### Loading -/

/-- A copy that is started without a dump has nothing to publish. -/
theorem Engine.Fallible.isSome_of_start {e : Engine} (he : e.Fallible c) {topic : Topic}
    {secret : Bytes} {dump : Option Bytes} {r : Replica} (h : e.start topic secret dump = .ok r)
    (hneeds : r.needsPush = true) : dump.isSome := by
  obtain ⟨limit, hplain⟩ := he.start h
  cases dump with
  | some data => rfl
  | none =>
    cases hs : Secret.ofBytes secret with
    | error f =>
      simp only [Engine.plain, hs] at hplain
      cases hplain
    | ok s =>
      simp only [Engine.plain, hs] at hplain
      obtain rfl : Replica.fresh topic s limit = r := Except.ok.inj hplain
      cases hneeds

/-- What is loaded can be used, and has a row if it has something to publish. -/
theorem Database.loadCopies_ready {db : Database} {e : Engine} (he : e.Fallible c)
    (hf : db.Fetches account) {secret : Bytes} {key : CopyKey} {slot : Slot}
    (h : (db.loadCopies e account secret).find? key = some slot) :
    ∃ r, slot = .ready r ∧ (r.needsPush = true → (db.data? key).isSome) := by
  by_cases hkey : key.account = account
  · subst hkey
    have hsecret : secret ≠ [] := by
      rintro rfl
      rw [loadCopies, if_pos rfl] at h
      cases h
    rw [db.find?_loadCopies e key.account key.topic hf hsecret] at h
    cases hstart : e.start key.topic secret (db.data? key) with
    | error t =>
      rw [data?] at hstart
      rw [hstart] at h
      cases h
    | ok r =>
      have hready : some (Slot.ready r) = some slot := by
        rw [data?] at hstart
        rwa [hstart] at h
      exact ⟨r, (Option.some.inj hready).symm, he.isSome_of_start hstart⟩
  · rw [db.find?_loadCopies_of_ne e secret hkey] at h
    cases h

namespace Device

theorem findable_load {env : Env} (he : env.engine.Fallible c) (hf : d.held.Findable own)
    (account : String) (secret : Option Bytes) :
    (d.read (Write.load env account secret)).2.held.Findable own := by
  by_cases hnone : d.copies = ∅
  · cases secret with
    | none => exact hf
    | some secret =>
      obtain ⟨result, hrun⟩ := Write.load_run hnone env account secret
      simp only [read, hrun]
      refine ⟨fun key hbroken => ?_, fun key r hr _ hneeds => ?_, hf.fetches⟩
      · obtain ⟨r, hr, -⟩ := Database.loadCopies_ready he (hf.fetches account) hbroken
        cases hr
      · obtain ⟨r', hr', hrow⟩ := Database.loadCopies_ready he (hf.fetches account) hr
        obtain rfl := Slot.ready.inj hr'
        exact hrow hneeds
  · simp only [read, Write.load_of_loaded (w := d.start) hnone]
    exact hf

/-! ### Everything that may happen -/

theorem findable_commit {α : Type} {x : Write α} (hx : Write.Safe own x)
    (hf : d.held.Findable own) {a : α} (h : (d.write x).1 = .ok a) :
    (d.write x).2.held.Findable own := by
  rcases hrun : x d.start with ⟨t | a', w⟩
  · simp only [write, hrun] at h
    cases h
  · simp only [write, hrun]
    exact hx d.start a' w hf hrun

theorem findable_rollback {α β : Type} {body : Task α β} (hf : d.held.Findable own) {f : Failure}
    (h : (d.write body.run).1 = .error (.failed f)) : (d.write body.run).2.held.Findable own := by
  have hends := body.revocable (revocable_start d)
  rcases hrun : body.run d.start with ⟨result, w⟩
  obtain rfl : result = .error (.failed f) := by simpa [write, hrun] using h
  rw [hrun] at hends
  obtain ⟨hcopies, hdatabase, -⟩ := Revocable.rollback hends
  have hheld : (w.finish .rollback).held = (d.dropping (body.removed d.start)).held := by
    rw [held, held, hcopies, hdatabase]
  simp only [write, hrun]
  exact hheld ▸ hf.dropping _

theorem findable_confirm {env : Env} (he : env.engine.Upright) (hf : d.held.Findable own)
    (account : String) (message : Message) (hash : String) :
    (d.read (Write.confirm env account message hash)).2.held.Findable own := by
  let s : SyncPass.Stored := ⟨⟨message, []⟩, hash⟩
  have htold := SyncPass.confirm_told env account s d.start
  obtain ⟨hcopies, haside⟩ := Prod.ext_iff.1 htold
  have hheld : (d.read (Write.confirm env account message hash)).2.held =
      ⟨d.copies.adjust ⟨account, message.topic⟩ (SyncPass.tell env.engine s), d.database⟩ := by
    rw [Held.mk.injEq]
    exact ⟨hcopies, congrArg Prod.fst haside⟩
  rw [hheld]
  exact hf.adjust _ fun r => SyncPass.needsPush_tell he s

/-- Answers that are passed on in a write: one that commits has saved the copies, and one that fails has
told them all the same. -/
theorem findable_confirmAll {env : Env} (he : env.engine.Upright) (hf : d.held.Findable own)
    (account : String) (stored : List SyncPass.Stored) :
    (d.write (SyncPass.confirmAll env account stored)).2.held.Findable own := by
  cases hresult : (d.write (SyncPass.confirmAll env account stored)).1 with
  | error t =>
    have herror : (SyncPass.confirmAll env account stored d.start).1 = .error t := hresult
    obtain ⟨done, s, -, -, -, htold⟩ := SyncPass.confirmAll_of_error herror
    obtain ⟨hcopies, -, hdatabase⟩ := write_told htold
    rw [held, hcopies, hdatabase t hresult]
    exact SyncPass.findable_tellAll he account (done ++ [s]) hf
  | ok u => exact findable_commit (Write.confirmAll_safe he account stored) hf hresult

theorem Next.findable (hnext : Next c own d d') (hf : d.held.Findable own) :
    d'.held.Findable own := by
  cases hnext with
  | load env account secret he => exact findable_load he hf account secret
  | commit body result hbody h => exact findable_commit (body.safe hbody) hf h
  | rollback body f h => exact findable_rollback hf h
  | collect env account he =>
    have h := d.collection he.push account
    exact hf.of_outline h.database h.outline
  | confirm env account message hash he =>
    exact findable_confirm he.toUpright hf account message hash
  | confirmAll env account stored he => exact findable_confirmAll he.toUpright hf account stored
  | clear => exact hf.of_quieter rfl (fun key h => by cases h) fun key r h => by cases h

theorem Reached.findable (h : Reached c own d) : d.held.Findable own := by
  induction h with
  | start hnone hfetches =>
    refine ⟨fun key => ?_, fun key r hr => ?_, hfetches⟩
    · simp [held, hnone]
    · simp [held, hnone] at hr
  | next _ hnext ih => exact hnext.findable ih

/-! ### What there is to publish -/

/-- The copy of a topic is loaded, and has changes to publish. -/
def owes (d : Device) (account : String) (topic : Topic) : Bool :=
  (d.held.copy? account topic).any Replica.needsPush

theorem owes_iff {topic : Topic} : d.owes account topic = true ↔
    ∃ r, d.held.Has account topic r ∧ r.needsPush = true := by
  simp [owes, Option.any_eq_true, Held.copy?_eq_some]

variable {env : Env} {topic : Topic} {topics : List Topic}

/-- A copy that is asked answers with a message of its topic, if it has changes. -/
theorem topic_of_answers {o : Option Outgoing}
    (h : Slot.Answers c env topic (d.copies.find? ⟨account, topic⟩) o) :
    o.map (·.message.topic) = if d.owes account topic then some topic else none := by
  rcases h with ⟨hquiet, rfl⟩ | ⟨r, n, push, hslot, hneeds, -, rfl⟩
  · rw [if_neg]
    · rfl
    · intro howes
      obtain ⟨r, hr, hneeds⟩ := owes_iff.1 howes
      rw [hquiet.2 r hr] at hneeds
      cases hneeds
  · rw [if_pos (owes_iff.2 ⟨r, hslot, hneeds⟩)]
    rfl

theorem topics_of_answers {answers : List (Option Outgoing)} (h : List.Forall₂
    (fun topic o => Slot.Answers c env topic (d.copies.find? ⟨account, topic⟩) o) topics answers) :
    (answers.filterMap id).map (·.message.topic) = topics.filter (d.owes account) := by
  induction h with
  | nil => rfl
  | @cons topic o topics answers ho _ ih =>
    have htopic := topic_of_answers ho
    cases howes : d.owes account topic with
    | false =>
      rw [howes] at htopic
      obtain rfl := Option.map_eq_none_iff.1 htopic
      rw [List.filterMap_cons_none rfl, List.filter_cons_of_neg (by simp [howes]), ih]
    | true =>
      rw [howes] at htopic
      obtain ⟨x, rfl, hx⟩ := Option.map_eq_some_iff.1 htopic
      rw [List.filterMap_cons_some (f := id) rfl, List.filter_cons_of_pos howes, List.map_cons, hx,
        ih]

/-- Where all can be found, every copy with changes is asked. -/
theorem askedTopics_of_findable (hf : d.held.Findable own) (account : String) :
    ∃ topics, d.askedTopics (some own) account = some topics ∧
      topics.filter (d.owes account) = Topic.all.filter (d.owes account) := by
  obtain ⟨t, ht, -, htags⟩ := hf.fetches account
  have hlists : d.database.Lists account := ⟨t, ht, htags⟩
  obtain ⟨dumped, hdumped⟩ := hlists.topicsOf
  have hrows := (Database.topicsOf_ok hdumped).2
  have htopics : d.askedTopics (some own) account =
      some (Write.publishedTopics account own dumped) := by
    simp only [askedTopics, hdumped]
  refine ⟨_, htopics, ?_⟩
  have hsublist := (askedTopics_sublist htopics).filter (d.owes account)
  have hnodup : (Topic.all.filter (d.owes account)).Nodup := by
    refine List.Nodup.filter _ ?_
    decide
  refine hsublist.eq_of_length_le (List.subperm_of_subset hnodup fun topic hmem => ?_).length_le
  obtain ⟨hall, howes⟩ := List.mem_filter.1 hmem
  refine List.mem_filter.2 ⟨?_, howes⟩
  obtain ⟨r, hr, hneeds⟩ := owes_iff.1 howes
  unfold Write.publishedTopics
  split
  · exact hall
  · rename_i hown
    exact (hrows topic).2 (hf.rows ⟨account, topic⟩ r hr (Ne.symm hown) hneeds)

/-! ### What is told of it -/

/-- The engine fails to push a copy of the account that has changes. -/
def PushFails (d : Device) (env : Env) (account : String) : Prop :=
  ∃ topic r n t, d.held.Has account topic r ∧ r.needsPush = true ∧
    (env.engine.push (env.nonce n) r).1 = .error t

/-- Where all can be found, a collection hands out a message for each copy with changes, unless a push
fails. -/
theorem collects_of_findable (hf : d.held.Findable own) (he : env.engine.Pushes c)
    (hid : env.identity = some own) (account : String) :
    (∃ os, (d.read (Write.collect env account)).1 = .ok os ∧
      os.map (·.message.topic) = Topic.all.filter (d.owes account)) ∨
    (∃ t, (d.read (Write.collect env account)).1 = .error t) ∧ d.PushFails env account := by
  obtain ⟨topics, htopics, hall⟩ := askedTopics_of_findable hf account
  have h := d.collection he account
  rw [← hid] at htopics
  cases hresult : (d.read (Write.collect env account)).1 with
  | ok os =>
    obtain ⟨topics', answers, htopics', rfl, hanswers⟩ := h.messages os hresult
    obtain rfl := Option.some.inj (htopics.symm.trans htopics')
    exact .inl ⟨_, rfl, (topics_of_answers hanswers).trans hall⟩
  | error t =>
    obtain ⟨topic, -, hbroken | ⟨r, n, t', hslot, hneeds, hpush⟩⟩ :=
      (h.refuses t hresult).2 topics htopics
    · exact absurd hbroken (hf.whole _)
    · exact .inr ⟨⟨t, rfl⟩, topic, r, n, t', hslot, hneeds, hpush⟩

end Device

theorem Write.anyNeedsPush_of_whole : ∀ {l : List (CopyKey × Slot)}, (∀ p ∈ l, p.2 ≠ .broken) →
    anyNeedsPush l = .ok (l.any fun p => p.2.copy?.any Replica.needsPush)
  | [], _ => rfl
  | (key, .broken) :: rest, h => absurd rfl (h (key, .broken) List.mem_cons_self)
  | (key, .ready r) :: rest, h => by
    have ih := anyNeedsPush_of_whole fun p hp => h p (List.mem_cons_of_mem _ hp)
    rw [anyNeedsPush, List.any_cons, ih]
    cases hneeds : r.needsPush <;> simp [Slot.copy?, hneeds]

namespace Device

variable {env : Env}

/-- Where no copy is lost, a sync is needed if some copy has changes. -/
theorem needsSync_of_findable (hf : d.held.Findable own) : ∃ b,
    (d.read Write.needsSync).1 = .ok b ∧
      (b = true ↔ ∃ account topic, d.owes account topic = true) := by
  have hwhole : ∀ p ∈ d.copies.toList, p.2 ≠ .broken := by
    rintro ⟨key, slot⟩ hp rfl
    exact hf.whole key (SortedMap.mem_toList.1 hp)
  refine ⟨d.copies.toList.any fun p => p.2.copy?.any Replica.needsPush, ?_, ?_⟩
  · simp only [read, Write.needsSync, start, Write.anyNeedsPush_of_whole hwhole]
    rfl
  · rw [List.any_eq_true]
    constructor
    · rintro ⟨⟨key, slot⟩, hp, hneeds⟩
      obtain ⟨r, hr, hneeds⟩ := (Option.any_eq_true _ _).1 hneeds
      obtain rfl := Slot.copy?_eq_some.1 hr
      exact ⟨key.account, key.topic, owes_iff.2 ⟨r, SortedMap.mem_toList.1 hp, hneeds⟩⟩
    · rintro ⟨account, topic, howes⟩
      obtain ⟨r, hr, hneeds⟩ := owes_iff.1 howes
      exact ⟨(⟨account, topic⟩, .ready r), SortedMap.mem_toList.2 hr, hneeds⟩

/-- However a device came about, a collection hands out a message of each topic of which the account
has a copy with changes, and no other, unless a push fails. So if no collection fails, a sync is needed
exactly if there is an account for which something is handed out. Of the writes by which a device came
about this asks two things: a body that commits ends at the first of its calls that fails
(`Task.Orderly`), and under an identity other than `own` handlers say truly whether they changed a copy
(`Env.Serves.honest`). -/
theorem collects_all_changes (h : Reached c own d) (he : env.engine.Pushes c)
    (hid : env.identity = some own) :
    (∀ account, (∃ os, (d.read (Write.collect env account)).1 = .ok os ∧
        os.map (·.message.topic) = Topic.all.filter (d.owes account)) ∨
      (∃ t, (d.read (Write.collect env account)).1 = .error t) ∧ d.PushFails env account) ∧
    ∃ b, (d.read Write.needsSync).1 = .ok b ∧
      ((∀ account, (d.read (Write.collect env account)).1.isOk) →
        (b = true ↔ ∃ account os, (d.read (Write.collect env account)).1 = .ok os ∧ os ≠ [])) := by
  have hcollects := collects_of_findable h.findable he hid
  obtain ⟨b, hsync, hb⟩ := needsSync_of_findable h.findable
  refine ⟨hcollects, b, hsync, fun hok => hb.trans (exists_congr fun account => ?_)⟩
  rcases hcollects account with ⟨os, hos, htopics⟩ | ⟨⟨t, ht⟩, -⟩
  · constructor
    · rintro ⟨topic, howes⟩
      refine ⟨os, hos, ?_⟩
      rintro rfl
      have hmem : topic ∈ Topic.all.filter (d.owes account) :=
        List.mem_filter.2 ⟨Topic.mem_all topic, howes⟩
      rw [← htopics] at hmem
      cases hmem
    · rintro ⟨os', hos', hne⟩
      obtain rfl := Except.ok.inj (hos.symm.trans hos')
      obtain ⟨o, rest, rfl⟩ := List.exists_cons_of_ne_nil hne
      have hmem : o.message.topic ∈ Topic.all.filter (d.owes account) :=
        htopics ▸ List.mem_cons_self
      exact ⟨_, (List.mem_filter.1 hmem).2⟩
  · have hfailed := hok account
    rw [ht] at hfailed
    cases hfailed

/-- An account that is not the device's own is loaded and edited; a second edit is taken back. Of the
two topics, only the one with the first edit has a message. -/
theorem collects_all_changes_foreign :
    let env := Env.bare .xchacha20Poly1305 Replica.defaultLimit "05"
    let edit topic (result : Except Failure Unit) : Task Bool Unit :=
      .call env (.edit ⟨"06", topic⟩ fun r => r.set "k" [1]) fun reply =>
        .done (reply.bind fun _ => result)
    let loaded := (({} : Device).read (Write.load env "06" (some (List.replicate 32 0)))).2
    let edited := (loaded.write (edit .contacts (.ok ())).run).2
    let d := (edited.write (edit .userGroups (.error (.storage "full"))).run).2
    (∃ os, (d.read (Write.collect env "06")).1 = .ok os ∧
      os.map (·.message.topic) = [.contacts]) ∧ (d.read Write.needsSync).1 = .ok true := by
  intro env edit loaded edited d
  have hc := Cipher.faithful_xchacha20Poly1305
  have he := Engine.fallible_plain .xchacha20Poly1305 Replica.defaultLimit
  have hserves : env.Serves .xchacha20Poly1305 "05" :=
    ⟨he, fun account hid => .inl (Option.some.inj hid).symm⟩
  have horderly : ∀ topic result, (edit topic result).Orderly .xchacha20Poly1305 "05" :=
    fun topic result => ⟨hserves, fun r => ⟨[⟨"k", some [1]⟩], rfl⟩, fun f => ⟨f, rfl⟩,
      fun reply => trivial⟩
  have hstart : Reached .xchacha20Poly1305 "05" ({} : Device) :=
    .start rfl fun account => ⟨_, rfl, rfl, fun tag row hrow => by cases hrow⟩
  have hloaded : Reached .xchacha20Poly1305 "05" loaded := .next hstart (.load env "06" _ he)
  have hedited : Reached .xchacha20Poly1305 "05" edited :=
    .next hloaded (.commit (edit .contacts (.ok ())) () (horderly _ _) (by decide +kernel))
  have hreached : Reached .xchacha20Poly1305 "05" d :=
    .next hedited (.rollback (edit .userGroups (.error (.storage "full"))) (.storage "full")
      (by decide +kernel))
  obtain ⟨howes, hsync, hshort⟩ : Topic.all.filter (d.owes "06") = [.contacts] ∧
      (d.read Write.needsSync).1 = .ok true ∧ ∀ p ∈ d.copies.toList, ∀ r ∈ p.2.copy?,
        (Generation.layout.put r.generation).length + Cipher.overhead ≤ r.limit := by
    decide +kernel
  refine ⟨?_, hsync⟩
  have hpushes : env.engine.Pushes .xchacha20Poly1305 := he.push
  rcases (collects_all_changes hreached hpushes rfl).1 "06" with
    ⟨os, hos, htopics⟩ | ⟨-, topic, r, n, t, hr, -, hpush⟩
  · exact ⟨os, hos, htopics.trans howes⟩
  · -- Whatever the nonce, no message is too long.
    have hfits : (r.payload .xchacha20Poly1305 (env.nonce n)).length ≤ r.limit :=
      Replica.payload_fits hc (Bytes.length_ofNat Cipher.nonceLength n)
        (hshort _ (SortedMap.mem_toList.2 hr) r rfl)
    have henv : env.engine = .plain .xchacha20Poly1305 Replica.defaultLimit := rfl
    rw [henv] at hpush
    rcases hresult : r.push .xchacha20Poly1305 (env.nonce n) with ⟨f | push, r'⟩
    · have hlong := (Replica.tooLong_of_push (congrArg Prod.fst hresult)).1
      exact absurd hlong (Nat.not_lt.2 hfits)
    · simp only [Engine.plain, hresult] at hpush
      cases hpush

end Device

end AccountSync
