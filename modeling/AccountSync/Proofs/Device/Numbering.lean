import Mathlib.Data.List.Infix
import AccountSync.Proofs.Device.Durability
import AccountSync.Proofs.Device.Publishing
import AccountSync.Proofs.Replica.Numbers
import AccountSync.Proofs.Swarm.Steps
/-!
Under which numbers a device publishes.

A place is a copy with its row. A message carries the number of a copy and says what the copy holds;
the number is then spent on these entries, which `Held.Remembers` says of the copy and of what a
restart would make of its row. A restart of a row saved as edited skips a number, but does not write
the skip down, so the row lets the next restart give the same number away once more: it exposes it.
While the program runs, a row stays near its copy (`Held.Follows`) or takes its standing
(`Held.Runs`), so only a restart can undo what is remembered, and only from a row that exposes the
number (`numbered_once`).
-/

namespace AccountSync

variable {c : Cipher} {limit : Nat} {env : Env} {account : String}

/-! ### Plans -/

namespace Replica

theorem advances_changeAll (changes : List Change) (r : Replica) :
    r.Advances (r.changeAll changes).2 :=
  changeAll_induction (P := r.Advances)
    (fun r' what hr' => hr'.trans (advances_change r' what)) changes r (.refl r)

/-- Changes that leave a copy unmarked stay within a generation of edits. -/
theorem drifts_changeAll (changes : List Change) {r : Replica}
    (h : (r.changeAll changes).2.unsaved = false) : r.Drifts (r.changeAll changes).2 := by
  by_cases hp : r.phase = .edited
  · refine .inr ⟨hp, ?_, changeAll_seq_of_edited changes hp⟩
    rw [(changeAll_of_edited hp).1]
    decide
  · rcases changeAll_of_not_edited changes hp with hsame | hmarked
    · rw [hsame]
      exact .refl r
    · rw [hmarked] at h
      cases h

end Replica

namespace Plan

/-- A plan that keeps what is spent, and saves a copy that has left the number of its generation of
edits. -/
def Steady (plan : Plan) : Prop := ∀ r r' k, plan r = some (r', k) →
  r'.fixed = r.fixed ∧ r.Advances r' ∧ (k.Idle → r.Drifts r')

theorem steady_edit (env : Env) (changes : List Change) :
    (edit env (Replica.changeAll changes)).Steady := by
  intro r r' k hplan
  obtain ⟨rfl, rfl⟩ := Prod.ext_iff.1 (Option.some.inj hplan)
  refine ⟨Replica.changeAll_fixed changes r, Replica.advances_changeAll changes r, fun hidle => ?_⟩
  exact Replica.drifts_changeAll changes (Keeping.idle_ofUnsaved.1 hidle)

theorem steady_confirm (env : Env) (message : Message) (hash : String) :
    (confirm env message hash).Steady := by
  intro r r' k hplan
  obtain ⟨rfl, rfl⟩ := Prod.ext_iff.1 (Option.some.inj hplan)
  refine ⟨Replica.confirm_fixed r _ _, Replica.advances_confirm r _ _, fun hidle => ?_⟩
  have hunsaved := Keeping.idle_ofUnsaved.1 hidle
  have hc := Replica.confirm_confirmed r message.seq hash
  dsimp only at hunsaved ⊢
  generalize r.confirm message.seq hash = x at hc hunsaved ⊢
  cases hc with
  | applied _ _ _ _ _ _ _ hmarked =>
    rw [hmarked] at hunsaved
    cases hunsaved
  | ignored => exact .refl r

theorem steady_share (c : Cipher) (env : Env) (key : CopyKey) (share : List Message) :
    (Plan.share c env key share).Steady := by
  intro r r' k hplan
  have hnone : (r.merge c (Receive.batch share)).1 = [] → _ := Replica.merge_of_none c
  have hmarked := Replica.merge_eq_or_unsaved c r (Receive.batch share)
  have hfixed := Replica.merge_fixed c r (Receive.batch share)
  have hadvances := Replica.advances_merge c r (Receive.batch share)
  unfold Plan.share at hplan
  generalize r.merge c (Receive.batch share) = x at hnone hmarked hfixed hadvances hplan
  obtain ⟨accepted, r₁⟩ := x
  dsimp only at hnone hmarked hfixed hadvances hplan
  by_cases hacc : accepted = []
  · rw [if_pos hacc] at hplan
    cases hplan
    exact ⟨hfixed, hadvances, fun _ => .inl (hnone hacc)⟩
  · rw [if_neg hacc] at hplan
    split at hplan
    · cases hplan
      refine ⟨hfixed, hadvances, fun hidle => ?_⟩
      rcases hmarked with rfl | hmarked
      · exact .refl _
      · rw [if_pos hmarked] at hidle
        exact hidle.elim
    · cases hplan

end Plan

/-! ### Places -/

/-- The row of a copy lets a restart use this number once more. -/
def Database.Exposes (db : Database) (key : CopyKey) (n : Int) : Prop :=
  ∃ saved, db.standing? key = some saved ∧ saved.Exposes n

instance (db : Database) (key : CopyKey) (n : Int) : Decidable (db.Exposes key n) :=
  decidable_of_iff (∃ saved ∈ db.standing? key, saved.phase = .edited ∧ n = saved.seq + 1) Iff.rfl

namespace Held

variable {h h' : Held} {key : CopyKey} {n : Int} {m : Entries} {secrets : String → Bytes}

/-- The copy at a place has the secret of its account, and its row is near it. -/
def Follows (limit : Nat) (secrets : String → Bytes) (h : Held) (key : CopyKey) : Prop :=
  ∀ r, h.copies.find? key = some (.ready r) →
    (∃ s, Secret.ofBytes (secrets key.account) = .ok s ∧ r.fixed = (key.topic, s, limit)) ∧
      ∃ saved, h.database.standing? key = some saved ∧ saved.Near r.toStanding

/-- At a place, a number is spent on entries: in the copy, and in what a restart would make of its
row, unless the row exposes the number. -/
def Remembers (h : Held) (key : CopyKey) (n : Int) (m : Entries) : Prop :=
  (∀ r, h.copies.find? key = some (.ready r) → r.Spent n m) ∧
    ∀ saved, h.database.standing? key = some saved → saved.resumed.Spent n m ∨ saved.Exposes n

/-- What may happen to a place while the program runs: nothing; or its copy takes a step, which
leaves the row as it is, or writes it. -/
inductive Runs (key : CopyKey) (h h' : Held) : Prop where
  | same : h'.copies.find? key = h.copies.find? key →
      h'.database.standing? key = h.database.standing? key → Runs key h h'
  | drifted (r r' : Replica) : h.copies.find? key = some (.ready r) →
      h'.copies.find? key = some (.ready r') → r'.fixed = r.fixed → r.Advances r' → r.Drifts r' →
      h'.database.standing? key = h.database.standing? key → Runs key h h'
  | saved (r r' : Replica) : h.copies.find? key = some (.ready r) →
      h'.copies.find? key = some (.ready r') → r'.fixed = r.fixed → r.Advances r' →
      h'.database.standing? key = some r'.toStanding → Runs key h h'

theorem Runs.follows (hruns : Runs key h h') (hf : h.Follows limit secrets key) :
    h'.Follows limit secrets key := by
  intro q hq
  cases hruns with
  | same hcopy hrow =>
    rw [hrow]
    exact hf q (hcopy ▸ hq)
  | drifted r r' hr hr' hfixed _ hdrifts hrow =>
    obtain rfl : r' = q := Slot.ready_unique hr' hq
    obtain ⟨⟨s, hs, hown⟩, saved, hsaved, hnear⟩ := hf r hr
    exact ⟨⟨s, hs, hfixed.trans hown⟩, saved, hrow.trans hsaved,
      Replica.near_of_drifts hnear hdrifts⟩
  | saved r r' hr hr' hfixed _ hrow =>
    obtain rfl : r' = q := Slot.ready_unique hr' hq
    obtain ⟨⟨s, hs, hown⟩, -⟩ := hf r hr
    exact ⟨⟨s, hs, hfixed.trans hown⟩, _, hrow, Standing.near_self _⟩

theorem Runs.remembers (hruns : Runs key h h') (hm : h.Remembers key n m) :
    h'.Remembers key n m := by
  have hspent : ∀ {r r'}, h.copies.find? key = some (.ready r) →
      h'.copies.find? key = some (.ready r') → r.Advances r' →
      ∀ q, h'.copies.find? key = some (.ready q) → q.Spent n m := by
    intro r r' hr hr' hadvances q hq
    obtain rfl : r' = q := Slot.ready_unique hr' hq
    exact hadvances n m (hm.1 r hr)
  cases hruns with
  | same hcopy hrow =>
    exact ⟨fun q hq => hm.1 q (hcopy ▸ hq), fun saved hs => hm.2 saved (hrow ▸ hs)⟩
  | drifted r r' hr hr' _ hadvances _ hrow =>
    exact ⟨hspent hr hr' hadvances, fun saved hs => hm.2 saved (hrow ▸ hs)⟩
  | saved r r' hr hr' _ hadvances hrow =>
    -- The row says what the copy says, so a restart of it knows what the copy knows.
    refine ⟨hspent hr hr' hadvances, fun saved hs => .inl ?_⟩
    obtain rfl : r'.toStanding = saved := Option.some.inj (hrow.symm.trans hs)
    exact (hspent hr hr' hadvances r' hr').resumed

theorem follows_of_runs (hruns : Relation.ReflTransGen (Runs key) h h')
    (hf : h.Follows limit secrets key) : h'.Follows limit secrets key := by
  induction hruns with
  | refl => exact hf
  | tail _ hone ih => exact hone.follows ih

theorem remembers_of_runs (hruns : Relation.ReflTransGen (Runs key) h h')
    (hm : h.Remembers key n m) : h'.Remembers key n m := by
  induction hruns with
  | refl => exact hm
  | tail _ hone ih => exact hone.remembers ih

/-- What the copy at a place publishes is remembered there. -/
theorem Follows.remembers_push {nonce : Bytes} {push : Push} {r : Replica}
    (hf : h.Follows limit secrets key) (hr : h.copies.find? key = some (.ready r))
    (hneeds : r.needsPush = true) (hpush : (r.push c nonce).1 = .ok push)
    (hr' : h'.copies.find? key = some (.ready (r.push c nonce).2))
    (hrow : h'.database.standing? key = h.database.standing? key) :
    h'.Remembers key r.seq r.entries := by
  obtain ⟨-, saved, hsaved, hnear⟩ := hf r hr
  refine ⟨fun q hq => ?_, fun saved' hs => ?_⟩
  · obtain rfl := Slot.ready_unique hr' hq
    exact Replica.spent_of_push hneeds hpush
  · obtain rfl : saved = saved' := Option.some.inj ((hrow.trans hsaved).symm.trans hs)
    exact Replica.spent_or_exposes hnear hneeds

end Held

/-! ### Writes -/

namespace Held

variable {h h' : Held} {topic : Topic}

/-- To use a copy is to let its place run. -/
theorem runs_use {plan : Plan} (hsteady : plan.Steady)
    (huse : h.use ⟨account, topic⟩ plan = some h')
    (hfits : ∀ r, h'.copies.find? ⟨account, topic⟩ = some (.ready r) → r.Fits) (key : CopyKey) :
    Runs key h h' := by
  by_cases hkey : key = ⟨account, topic⟩
  · subst hkey
    rcases use_eq_some huse with ⟨rfl, -⟩ | ⟨r, r', k, hr, hplan, hcopies, hrows⟩
    · exact .same rfl rfl
    have hr' : h'.copies.find? ⟨account, topic⟩ = some (.ready (k.copy r')) := by
      rw [hcopies, SortedMap.find?_insert_self]
    obtain ⟨hfixed, hadvances, hdrifts⟩ := hsteady r r' k hplan
    have hfixed' : (k.copy r').fixed = r.fixed := (k.copy_fixed r').trans hfixed
    have hadvances' : r.Advances (k.copy r') := by
      intro n m hs
      rw [k.copy_toStanding]
      exact hadvances n m hs
    have hdata := (Keeping.rows_eq_some hrows).2 ⟨account, topic⟩
    rw [if_pos rfl] at hdata
    cases k with
    | save time =>
      have hfits := hfits _ hr'
      exact .saved r _ hr hr' hfixed' hadvances'
        (Database.standing?_put hfits.words hfits.length hdata)
    | refresh | leave =>
      exact .drifted r r' hr hr' hfixed' hadvances' (hdrifts trivial)
        (Database.standing?_congr hdata)
  · obtain ⟨hcopy, hdata⟩ := use_frame huse hkey
    exact .same hcopy (Database.standing?_congr hdata)

/-- Uses of distinct copies let all places run. -/
theorem runs_useAll (key : CopyKey) : ∀ {uses : List (Topic × Plan)} {h : Held},
    (∀ u ∈ uses, u.2.Steady) → (uses.map Prod.fst).Nodup →
    h.useAll account uses = some h' → h'.copies.Fit → Relation.ReflTransGen (Runs key) h h'
  | [], h, _, _, huse, _ => by
    obtain rfl := Option.some.inj huse
    exact .refl
  | (topic, plan) :: uses, h, hsteady, hn, huse, hfits => by
    rw [useAll, List.foldlM_cons, Option.bind_eq_bind, Option.bind_eq_some_iff] at huse
    obtain ⟨h₁, hone, hrest⟩ := huse
    obtain ⟨hplan, hplans⟩ := List.forall_mem_cons.1 hsteady
    obtain ⟨hnot, hn⟩ := List.nodup_cons.1 hn
    -- The later uses are of other copies, so this one is at the end as it is now.
    have hfits₁ : ∀ r, h₁.copies.find? ⟨account, topic⟩ = some (.ready r) → r.Fits := by
      intro r hr
      rw [← (useAll_frame hrest fun _ => hnot).1] at hr
      exact hfits _ r hr
    exact .head (runs_use hplan hone hfits₁ key) (runs_useAll key hplans hn hrest hfits)

end Held

/-- Every topic has one share at most. -/
theorem Receive.nodup_shares (messages : List Message) :
    ((shares messages).map Prod.fst).Nodup := by
  have hrank : (Topic.byRank.map id).Nodup := by decide
  refine nodup_map_filterMap (fun topic share hshare => ?_) hrank
  split at hshare
  · cases hshare
  · obtain rfl := Option.some.inj hshare
    rfl

/-- What a device does within a write. -/
inductive Act where
  | edit (topic : Topic) (changes : List Change)
  | receive (messages : List Message)
  | confirm (stored : SyncPass.Stored)

namespace Act

def run (env : Env) (account : String) : Act → Write Unit
  | edit topic changes =>
    (fun _ => ()) <$> Write.edit env ⟨account, topic⟩ (Replica.changeAll changes)
  | receive messages => (fun _ => ()) <$> Write.receive env account messages
  | confirm stored => SyncPass.confirmAll env account [stored]

/-- Which copies an act uses, and how. -/
def uses (c : Cipher) (env : Env) (account : String) : Act → List (Topic × Plan)
  | edit topic changes => [(topic, .edit env (Replica.changeAll changes))]
  | receive messages => (Receive.shares messages).map fun share =>
    (share.1, .share c env ⟨account, share.1⟩ share.2)
  | confirm stored => [(stored.outgoing.message.topic,
    .confirm env stored.outgoing.message stored.hash)]

/-- What an act leaves of what is held. -/
def effect (c : Cipher) (env : Env) (account : String) (act : Act) (h : Held) : Option Held :=
  match act with
  | receive messages => h.receive c env account messages
  | edit _ _ | confirm _ => h.useAll account (act.uses c env account)

theorem leaves_run (henv : env.engine = .plain c limit) (act : Act) (w : Work) :
    (act.run env account).leaves Work.held w = act.effect c env account w.held := by
  cases act with
  | edit topic changes =>
    refine (Step.leaves_map _ _ w).trans ((Write.leaves_edit henv ⟨account, topic⟩ _ w).trans ?_)
    exact (bind_pure (w.held.use _ _)).symm
  | receive messages =>
    exact (Step.leaves_map _ _ w).trans (Write.leaves_receive henv account messages w)
  | confirm stored => exact SyncPass.leaves_confirmAll henv account [stored] w

theorem uses_of_effect {act : Act} {h h' : Held} (heffect : act.effect c env account h = some h') :
    h.useAll account (act.uses c env account) = some h' := by
  cases act with
  | edit | confirm => exact heffect
  | receive messages =>
    simp only [effect, Held.receive] at heffect
    split at heffect
    · cases heffect
    · rwa [Held.useAll, uses, List.foldlM_map]

theorem steady_uses (act : Act) : ∀ u ∈ act.uses c env account, u.2.Steady := by
  cases act with
  | edit topic changes => exact List.forall_mem_singleton.2 (Plan.steady_edit env changes)
  | receive messages =>
    intro u hu
    obtain ⟨share, -, rfl⟩ := List.mem_map.1 hu
    exact Plan.steady_share c env _ share.2
  | confirm stored => exact List.forall_mem_singleton.2 (Plan.steady_confirm env _ _)

theorem nodup_uses (act : Act) : ((act.uses c env account).map Prod.fst).Nodup := by
  cases act with
  | edit | confirm => simp [uses]
  | receive messages =>
    have hfst : ((receive messages).uses c env account).map Prod.fst =
        (Receive.shares messages).map Prod.fst := by
      simp [uses, Function.comp_def]
    rw [hfst]
    exact Receive.nodup_shares messages

/-- An act lets all places run. -/
theorem runs_effect {act : Act} {h h' : Held} (heffect : act.effect c env account h = some h')
    (hfits : h'.copies.Fit) (key : CopyKey) : Relation.ReflTransGen (Held.Runs key) h h' :=
  Held.runs_useAll key act.steady_uses act.nodup_uses (uses_of_effect heffect) hfits

/-- The body of a write that does one thing after the other. -/
def body (acts : List (Env × String × Act)) : Write (List Unit) :=
  Step.each (fun p => p.2.2.run p.1 p.2.1) acts

theorem leaves_body {acts : List (Env × String × Act)}
    (henv : ∀ p ∈ acts, p.1.engine = .plain c limit) (w : Work) :
    (body acts).leaves Work.held w =
      acts.foldlM (fun h p => p.2.2.effect c p.1 p.2.1 h) w.held :=
  Step.leaves_each (fun p hp w => leaves_run (henv p hp) p.2.2 w) w

/-- Acts let all places run, if after each of them the copies can be written down. -/
theorem runs_foldlM (key : CopyKey) : ∀ {acts : List (Env × String × Act)} {h h' : Held},
    acts.foldlM (fun h p => p.2.2.effect c p.1 p.2.1 h) h = some h' →
    (∀ part, part <+: acts → ∀ hp,
      part.foldlM (fun h p => p.2.2.effect c p.1 p.2.1 h) h = some hp → hp.copies.Fit) →
    Relation.ReflTransGen (Held.Runs key) h h'
  | [], h, h', hfold, _ => by
    obtain rfl := Option.some.inj hfold
    exact .refl
  | p :: acts, h, h', hfold, hfits => by
    rw [List.foldlM_cons, Option.bind_eq_bind, Option.bind_eq_some_iff] at hfold
    obtain ⟨h₁, hone, hrest⟩ := hfold
    have hfirst : [p].foldlM (fun h p => p.2.2.effect c p.1 p.2.1 h) h = some h₁ :=
      (bind_pure (p.2.2.effect c p.1 p.2.1 h)).trans hone
    have hfits₁ : h₁.copies.Fit :=
      hfits [p] (List.prefix_append [p] acts) h₁ hfirst
    refine (runs_effect hone hfits₁ key).trans (runs_foldlM key hrest fun part hpart hp hrun => ?_)
    refine hfits (p :: part) (List.cons_prefix_cons.2 ⟨rfl, hpart⟩) hp ?_
    rw [List.foldlM_cons, Option.bind_eq_bind, hone]
    exact hrun

end Act

/-! ### Restarts -/

/-- What a copy is started from. -/
theorem Engine.start_eq_ok {topic : Topic} {secret : Bytes} {db : Database} {key : CopyKey}
    {r : Replica} (h : (Engine.plain c limit).start topic secret (db.data? key) = .ok r) :
    ∃ s saved, Secret.ofBytes secret = .ok s ∧ db.standing? key = some saved ∧
      r = .restore topic s limit saved.resumed := by
  unfold Database.standing?
  cases hs : Secret.ofBytes secret with
  | error f =>
    simp only [plain, hs] at h
    cases h
  | ok s =>
    simp only [plain, hs] at h
    cases hdata : db.data? key with
    | none =>
      rw [hdata] at h
      exact ⟨s, {}, rfl, rfl, (Except.ok.inj h).symm⟩
    | some data =>
      rw [hdata] at h
      cases hread : Standing.layout.read data with
      | error fault =>
        simp only [Replica.ofDump, hread] at h
        cases h
      | ok saved =>
        simp only [Replica.ofDump_of_read hread] at h
        exact ⟨s, saved, rfl, by simp only [hread]; rfl, (Except.ok.inj h).symm⟩

namespace Device

variable {d : Device} {key : CopyKey} {n : Int} {m : Entries} {secrets : String → Bytes}

/-- What a copy is right after a restart. -/
theorem restored_of_reload (henv : env.engine = .plain c limit) {r : Replica}
    (hr : (d.reload env account (secrets account)).held.copies.find? key = some (.ready r)) :
    key.account = account ∧ ∃ s saved, Secret.ofBytes (secrets key.account) = .ok s ∧
      d.database.standing? key = some saved ∧
        r = .restore key.topic s limit saved.resumed := by
  rw [held_reload, henv] at hr
  by_cases hkey : key.account = account
  · subst hkey
    obtain ⟨-, -, hstart⟩ := Held.start_of_loaded hr
    exact ⟨rfl, Engine.start_eq_ok hstart⟩
  · rw [Database.find?_loadCopies_of_ne _ _ _ hkey] at hr
    cases hr

theorem database_reload (d : Device) (env : Env) (account : String) (secret : Bytes) :
    (d.reload env account secret).held.database = d.database := by
  rw [held_reload]

/-- After a restart each copy is near its row. -/
theorem follows_reload (henv : env.engine = .plain c limit) (d : Device) (account : String)
    (secrets : String → Bytes) (key : CopyKey) :
    (d.reload env account (secrets account)).held.Follows limit secrets key := by
  intro r hr
  obtain ⟨-, s, saved, hs, hsaved, rfl⟩ := restored_of_reload henv hr
  refine ⟨⟨s, hs, rfl⟩, saved, ?_, saved.near_resumed⟩
  rw [database_reload]
  exact hsaved

/-- A restart keeps in mind what its row does not expose. -/
theorem remembers_reload (henv : env.engine = .plain c limit) (hm : d.held.Remembers key n m)
    (hexposed : key.account = account → ¬ d.database.Exposes key n) :
    (d.reload env account (secrets account)).held.Remembers key n m := by
  refine ⟨fun r hr => ?_, fun saved hs => ?_⟩
  · obtain ⟨haccount, s, saved, -, hsaved, rfl⟩ := restored_of_reload henv hr
    refine (hm.2 saved hsaved).resolve_right fun hexposes => ?_
    exact hexposed haccount ⟨saved, hsaved, hexposes⟩
  · rw [database_reload] at hs
    exact hm.2 saved hs

end Device

/-! ### Collections -/

/-- Every copy of the message's topic under the account's secret reads the message as this
generation. -/
def Message.Says (c : Cipher) (secret : Bytes) (message : Message) (g : Generation) : Prop :=
  ∃ s, Secret.ofBytes secret = .ok s ∧
    ∀ r : Replica, r.topic = message.topic → r.secret = s → r.read? c message.payload = some g

namespace Device

variable {d : Device} {key : CopyKey} {n : Int} {m : Entries} {secrets : String → Bytes}

/-- The messages that a collection hands out: all of them, or none if it fails. -/
def handsOut (d : Device) (env : Env) (account : String) : List Outgoing :=
  (d.read (Write.collect env account)).1.toOption.getD []

/-- A collection lets all places run. -/
theorem runs_collect (henv : env.engine = .plain c limit) (d : Device) (account : String)
    (key : CopyKey) : Held.Runs key d.held (d.read (Write.collect env account)).2.held := by
  obtain ⟨hdb, ⟨-, -, hcopies⟩ | ⟨identity, dumped, -, hdumped, hcollected⟩⟩ :=
    Write.collect_run henv account d
  · exact .same (congrArg (·.find? key) hcopies) (congrArg (·.standing? key) hdb)
  · rcases hcollected.kept (Write.nodup_publishedTopics hdumped) key with hsame | ⟨r, n, hr, -, hr'⟩
    · exact .same hsame (congrArg (·.standing? key) hdb)
    · exact .drifted r _ hr hr' (Replica.push_fixed c _ r) (Replica.advances_push c _ r)
        (Replica.drifts_push c _ r) (congrArg (·.standing? key) hdb)

/-- A message that is handed out says what the copy of its topic holds, and this is remembered. -/
theorem says_of_handsOut (hc : c.Faithful) (henv : env.Supplied c limit)
    (hf : ∀ key, d.held.Follows limit secrets key)
    (hfits : d.copies.Fit) {o : Outgoing} (ho : o ∈ d.handsOut env account) :
    ∃ r, d.copies.find? ⟨account, o.message.topic⟩ = some (.ready r) ∧ r.needsPush = true ∧
      o.message.seq = r.seq ∧ o.message.Says c (secrets account) r.generation ∧
      (d.read (Write.collect env account)).2.held.Remembers ⟨account, o.message.topic⟩ r.seq
        r.entries := by
  obtain ⟨hdb, ⟨-, ⟨f, hfailed⟩, -⟩ | ⟨identity, dumped, -, hdumped, hcollected⟩⟩ :=
    Write.collect_run henv.engine account d
  · rw [handsOut, hfailed] at ho
    exact absurd ho List.not_mem_nil
  rw [handsOut] at ho
  cases hresult : (d.read (Write.collect env account)).1 with
  | error t =>
    rw [hresult] at ho
    exact absurd ho List.not_mem_nil
  | ok os =>
    rw [hresult] at ho
    obtain ⟨r, n, push, hr, hneeds, hpush, hout, hr'⟩ :=
      ((hcollected.sends (Write.nodup_publishedTopics hdumped) hresult).1 o ho).2
    obtain ⟨⟨s, hs, hfixed⟩, -⟩ := hf ⟨account, o.message.topic⟩ r hr
    have hremembers : (d.read (Write.collect env account)).2.held.Remembers
        ⟨account, o.message.topic⟩ r.seq r.entries := by
      refine (hf ⟨account, o.message.topic⟩).remembers_push hr hneeds hpush hr' ?_
      exact congrArg (·.standing? ⟨account, o.message.topic⟩) hdb
    have hfits := hfits _ r hr
    obtain ⟨hrtopic, hrest⟩ := Prod.ext_iff.1 hfixed
    obtain ⟨-, hseq, -⟩ := Replica.push_eq_ok hpush
    refine ⟨r, hr, hneeds, ?_, ⟨s, hs, fun q htopic hsecret => ?_⟩, hremembers⟩
    · rw [hout]
      exact hseq
    · rw [hout]
      exact Replica.read?_push hc hfits.generation_words hfits.generation_length (henv.nonces n)
        hpush (htopic.trans hrtopic.symm) (hsecret.trans (Prod.ext_iff.1 hrest).1.symm)

/-- A collection hands out one message of each topic at most. -/
theorem nodup_handsOut (henv : env.engine = .plain c limit) (d : Device) (account : String) :
    ((d.handsOut env account).map (·.message.topic)).Nodup := by
  obtain ⟨-, ⟨-, ⟨f, hfailed⟩, -⟩ | ⟨identity, dumped, -, hdumped, hcollected⟩⟩ :=
    Write.collect_run henv account d
  · rw [handsOut, hfailed]
    exact List.nodup_nil
  · rw [handsOut]
    cases hresult : (d.read (Write.collect env account)).1 with
    | error t => exact List.nodup_nil
    | ok os => exact (hcollected.sends (Write.nodup_publishedTopics hdumped) hresult).2

end Device

/-! ### The course of a device -/

/-- What a device may do. -/
inductive Move where
  | restart (env : Env) (account : String)
  | commit (acts : List (Env × String × Act))
  | collect (env : Env) (account : String)

theorem Move.part_of_restart {move : Move} (hmove : ∀ env account, move ≠ .restart env account)
    {env env' : Env} {account account' : String} {part rest : List Move}
    (h : [move, .restart env account] = part ++ .restart env' account' :: rest) :
    part = [move] := by
  match part with
  | [] => exact absurd (List.cons.inj h).1 (hmove env' account')
  | [x] => rw [(List.cons.inj h).1]
  | x :: y :: part =>
    obtain ⟨-, htail⟩ := List.cons.inj h
    simp at htail

namespace Device

variable {d : Device} {key : CopyKey} {n : Int} {m : Entries} {secrets : String → Bytes}
  {move : Move} {moves : List Move}

/-- The device after a move. A restart loads the copies of one account, under its secret. -/
def go (secrets : String → Bytes) (d : Device) : Move → Device
  | .restart env account => d.reload env account (secrets account)
  | .commit acts => (d.write (Act.body acts)).2
  | .collect env account => (d.read (Write.collect env account)).2

/-- The device after several moves. -/
def course (secrets : String → Bytes) (d : Device) (moves : List Move) : Device :=
  moves.foldl (go secrets) d

/-- A move in supplied surroundings: a write commits, and all copies can be written down. -/
def Proper (c : Cipher) (limit : Nat) (d : Device) : Move → Prop
  | .restart env _ => env.Supplied c limit
  | .commit acts => (∀ p ∈ acts, p.1.Supplied c limit) ∧
      (∃ replies, (d.write (Act.body acts)).1 = .ok replies) ∧
      ∀ part, part <+: acts → (Act.body part d.start).2.device.copies.Fit
  | .collect env _ => env.Supplied c limit ∧ d.copies.Fit

/-- All moves of a course are proper. -/
def ProperAll (c : Cipher) (limit : Nat) (secrets : String → Bytes) : Device → List Move → Prop
  | _, [] => True
  | d, move :: moves => Proper c limit d move ∧ ProperAll c limit secrets (d.go secrets move) moves

theorem properAll_append : ∀ {moves others : List Move} {d : Device},
    ProperAll c limit secrets d (moves ++ others) ↔
      ProperAll c limit secrets d moves ∧ ProperAll c limit secrets (d.course secrets moves) others
  | [], _, _ => (and_iff_right trivial).symm
  | _ :: _, _, _ => (and_congr_right fun _ => properAll_append).trans and_assoc.symm

theorem runs_commit {acts : List (Env × String × Act)} (hp : Proper c limit d (.commit acts))
    (key : CopyKey) :
    Relation.ReflTransGen (Held.Runs key) d.held (d.write (Act.body acts)).2.held := by
  obtain ⟨henv, hcommits, hfits⟩ := hp
  have hengine : ∀ p ∈ acts, p.1.engine = .plain c limit := fun p hp => (henv p hp).engine
  have hleaves := write_commits_iff.1 ⟨hcommits, rfl⟩
  rw [Act.leaves_body hengine] at hleaves
  refine Act.runs_foldlM key hleaves fun part hpart h hfold => ?_
  have hpartial : (Act.body part).leaves Work.held d.start = some h :=
    (Act.leaves_body (fun p hp => hengine p (hpart.subset hp)) d.start).trans hfold
  have hfits := hfits part hpart
  unfold Step.leaves at hpartial
  rcases hrun : Act.body part d.start with ⟨t | replies, w⟩
  · rw [hrun] at hpartial
    cases hpartial
  · rw [hrun] at hpartial hfits
    obtain rfl := Option.some.inj hpartial
    exact hfits

theorem follows_go (hp : Proper c limit d move) (hf : ∀ key, d.held.Follows limit secrets key)
    (key : CopyKey) : (d.go secrets move).held.Follows limit secrets key := by
  cases move with
  | restart env account => exact follows_reload hp.engine d account secrets key
  | collect env account => exact (runs_collect hp.1.engine d account key).follows (hf key)
  | commit acts => exact Held.follows_of_runs (runs_commit hp key) (hf key)

theorem remembers_go (hp : Proper c limit d move) (hm : d.held.Remembers key n m)
    (hexposed : ∀ env, move = .restart env key.account → ¬ d.database.Exposes key n) :
    (d.go secrets move).held.Remembers key n m := by
  cases move with
  | restart env account =>
    refine remembers_reload hp.engine hm fun haccount => hexposed env ?_
    rw [haccount]
  | collect env account => exact (runs_collect hp.1.engine d account key).remembers hm
  | commit acts => exact Held.remembers_of_runs (runs_commit hp key) hm

theorem follows_course : ∀ {moves : List Move} {d : Device}, ProperAll c limit secrets d moves →
    (∀ key, d.held.Follows limit secrets key) →
    ∀ key, (d.course secrets moves).held.Follows limit secrets key
  | [], _, _, hf => hf
  | _ :: _, _, hp, hf => by
    have hrest := follows_course hp.2 (follows_go hp.1 hf)
    exact hrest

/-- A device without copies is in order. -/
theorem follows_of_empty (hd : d.copies = ∅) (key : CopyKey) :
    d.held.Follows limit secrets key := by
  intro r hr
  rw [held, hd] at hr
  cases hr

/-- What a device hands out on its course says what a copy of it holds. -/
theorem says_of_course (hc : c.Faithful) (hd : d.copies = ∅)
    {others : List Move}
    (hproper : ProperAll c limit secrets d (moves ++ .collect env account :: others)) {o : Outgoing}
    (ho : o ∈ (d.course secrets moves).handsOut env account) :
    ∃ r ∈ (d.course secrets moves).held.copy? account o.message.topic,
      o.message.Says c (secrets account) r.generation := by
  obtain ⟨hmoves, hcollect, -⟩ := properAll_append.1 hproper
  obtain ⟨r, hr, -, -, hsays, -⟩ := says_of_handsOut hc hcollect.1
    (follows_course hmoves (follows_of_empty hd)) hcollect.2 ho
  exact ⟨r, Held.copy?_eq_some.2 hr, hsays⟩

/-- What is spent stays spent on a course, unless a restart meets a row that exposes the number. -/
theorem remembers_course : ∀ {moves : List Move} {d : Device}, ProperAll c limit secrets d moves →
    d.held.Remembers key n m →
    (∀ part env rest, moves = part ++ .restart env key.account :: rest →
      ¬ (d.course secrets part).database.Exposes key n) →
    (d.course secrets moves).held.Remembers key n m
  | [], _, _, hm, _ => hm
  | move :: moves, d, hp, hm, hexposed => by
    have hone : (d.go secrets move).held.Remembers key n m :=
      remembers_go hp.1 hm fun env hmove => hexposed [] env moves (by rw [hmove]; rfl)
    have hrest := remembers_course hp.2 hone fun part env rest hmoves =>
      hexposed (move :: part) env rest (by rw [hmoves]; rfl)
    exact hrest

theorem proper_commit {acts : List (Env × String × Act)} (henv : ∀ p ∈ acts, p.1.Supplied c limit)
    (hok : (d.write (Act.body acts)).1.isOk = true)
    (hfits : ∀ part ∈ acts.inits, (Act.body part d.start).2.device.copies.Fit) :
    Proper c limit d (.commit acts) :=
  ⟨henv, exists_of_isOk hok, fun part hpart => hfits part ((List.mem_inits part acts).2 hpart)⟩

/-- A device never hands out two messages of one topic and number that say different things, unless
it was restarted between the two from a row that exposes the number: it is that of the copy which an
earlier restart has made of the same row, and was never saved. -/
theorem numbered_once (hc : c.Faithful) {d : Device}
    (hd : d.copies = ∅) {before between : List Move} {env₁ env₂ : Env} {account : String}
    (hproper : ProperAll c limit secrets d
      (before ++ .collect env₁ account :: (between ++ [.collect env₂ account]))) :
    let d₁ := d.course secrets before
    let d₂ := d.course secrets (before ++ .collect env₁ account :: between)
    ((d₁.handsOut env₁ account).map (·.message.topic)).Nodup ∧
      ∀ o₁ ∈ d₁.handsOut env₁ account, ∀ o₂ ∈ d₂.handsOut env₂ account,
        o₁.message.topic = o₂.message.topic → o₁.message.seq = o₂.message.seq →
          (∃ g, g.seq = o₁.message.seq ∧ o₁.message.Says c (secrets account) g ∧
            o₂.message.Says c (secrets account) g) ∨
          ∃ part env rest, between = part ++ .restart env account :: rest ∧
            (d.course secrets (before ++ .collect env₁ account :: part)).database.Exposes
              ⟨account, o₁.message.topic⟩ o₁.message.seq := by
  intro d₁ d₂
  obtain ⟨hbefore, hfirst, hrest⟩ := properAll_append.1 hproper
  obtain ⟨hbetween, hsecond, -⟩ := properAll_append.1 hrest
  have hf₁ := follows_course hbefore (follows_of_empty hd)
  have hf₂ := follows_course hbetween (follows_go hfirst hf₁)
  have hcourse : ∀ part, d.course secrets (before ++ .collect env₁ account :: part) =
      (d₁.go secrets (.collect env₁ account)).course secrets part :=
    fun part => List.foldl_append
  refine ⟨nodup_handsOut hfirst.1.engine d₁ account, fun o₁ ho₁ o₂ ho₂ htopic hseq => ?_⟩
  obtain ⟨r₁, hr₁, -, hseq₁, hsays₁, hremembers⟩ :=
    says_of_handsOut hc hfirst.1 hf₁ hfirst.2 ho₁
  have hd₂ : d₂ = (d₁.go secrets (.collect env₁ account)).course secrets between := hcourse between
  rw [hd₂] at ho₂
  obtain ⟨r₂, hr₂, hneeds₂, hseq₂, hsays₂, -⟩ :=
    says_of_handsOut hc hsecond.1 hf₂ hsecond.2 ho₂
  by_cases hexposed : ∃ part env rest, between = part ++ .restart env account :: rest ∧
      (d.course secrets (before ++ .collect env₁ account :: part)).database.Exposes
        ⟨account, o₁.message.topic⟩ o₁.message.seq
  · exact .inr hexposed
  refine .inl ⟨r₁.generation, hseq₁.symm, hsays₁, ?_⟩
  have hlater := remembers_course hbetween hremembers fun part env rest hmoves hexposes => by
    refine hexposed ⟨part, env, rest, hmoves, ?_⟩
    rw [hcourse, hseq₁]
    exact hexposes
  -- The second message is that of a copy in which the number of the first is spent on its entries.
  have hsame : r₁.seq = r₂.seq := hseq₁.symm.trans (hseq.trans hseq₂)
  rw [htopic] at hlater
  have hspent := hlater.1 r₂ hr₂
  rw [hsame] at hspent
  have hentries : r₂.entries = r₁.entries := Replica.entries_of_spent hspent hneeds₂
  have htopics : r₂.topic = r₁.topic := by
    obtain ⟨⟨s₁, -, hfixed₁⟩, -⟩ := hf₁ _ r₁ hr₁
    obtain ⟨⟨s₂, -, hfixed₂⟩, -⟩ := hf₂ _ r₂ hr₂
    exact (congrArg Prod.fst hfixed₂).trans (htopic.symm.trans (congrArg Prod.fst hfixed₁).symm)
  have hgeneration : r₂.generation = r₁.generation := by
    simp only [Replica.generation, htopics, hsame, hentries]
  rwa [← hgeneration]

theorem exists_handsOut {os : List Outgoing} {topic : Topic} {seq : Int}
    (h : os.map (fun o => (o.message.topic, o.message.seq)) = [(topic, seq)]) :
    ∃ o ∈ os, o.message.topic = topic ∧ o.message.seq = seq := by
  have hmem : (topic, seq) ∈ os.map fun o => (o.message.topic, o.message.seq) := by
    rw [h]
    exact List.mem_cons_self
  obtain ⟨o, ho, heq⟩ := List.mem_map.1 hmem
  exact ⟨o, ho, (Prod.ext_iff.1 heq).1, (Prod.ext_iff.1 heq).2⟩

/-- A copy that was sent and saved is sent once more after a restart, as it was. -/
theorem numbered_once_sent_twice :
    let c := Cipher.xchacha20Poly1305
    let env := Env.bare c Replica.defaultLimit "05"
    let secrets : String → Bytes := fun _ => List.replicate 32 0
    let before : List Move := [.restart env "05",
      .commit [(env, "05", .edit .contacts [⟨"a", some [1]⟩])]]
    let saving : Move :=
      .commit [(env, "05", .confirm ⟨⟨⟨.contacts, 0, [], none, none⟩, []⟩, "h"⟩)]
    let d₁ := course secrets {} before
    let d₂ := course secrets {} (before ++ .collect env "05" :: [saving, .restart env "05"])
    ∃ o₁ ∈ d₁.handsOut env "05", ∃ o₂ ∈ d₂.handsOut env "05", ∃ g, g.seq = 1 ∧
      o₁.message.Says c (secrets "05") g ∧ o₂.message.Says c (secrets "05") g := by
  intro c env secrets before saving d₁ d₂
  have henv : env.Supplied c Replica.defaultLimit := Env.supplied_bare c Replica.defaultLimit "05"
  have hproper : ProperAll c Replica.defaultLimit secrets {}
      (before ++ .collect env "05" :: ([saving, .restart env "05"] ++ [.collect env "05"])) :=
    ⟨henv, proper_commit (by simp [henv]) (by decide +kernel) (by decide +kernel),
      ⟨henv, by decide +kernel⟩,
      proper_commit (by simp [henv]) (by decide +kernel) (by decide +kernel), henv,
      ⟨henv, by decide +kernel⟩, trivial⟩
  have hout₁ : (d₁.handsOut env "05").map (fun o => (o.message.topic, o.message.seq)) =
      [(.contacts, 1)] := by decide +kernel
  have hout₂ : (d₂.handsOut env "05").map (fun o => (o.message.topic, o.message.seq)) =
      [(.contacts, 1)] := by decide +kernel
  have hsaved : ¬ (course secrets {} (before ++ .collect env "05" :: [saving])).database.Exposes
      ⟨"05", .contacts⟩ 1 := by decide +kernel
  obtain ⟨o₁, ho₁, htopic₁, hseq₁⟩ := exists_handsOut hout₁
  obtain ⟨o₂, ho₂, htopic₂, hseq₂⟩ := exists_handsOut hout₂
  have hone := (numbered_once Cipher.faithful_xchacha20Poly1305 rfl hproper).2
    o₁ ho₁ o₂ ho₂ (htopic₁.trans htopic₂.symm) (hseq₁.trans hseq₂.symm)
  rcases hone with ⟨g, hg, hsays⟩ | ⟨part, e, rest, hmoves, hexposes⟩
  · exact ⟨o₁, ho₁, o₂, ho₂, g, hg.trans hseq₁, hsays⟩
  · obtain rfl := Move.part_of_restart (fun e a h => Move.noConfusion h) hmoves
    rw [htopic₁, hseq₁] at hexposes
    exact absurd hexposes hsaved

/-- Two restarts from the row of one edit give two copies the same number; each is edited and
published before its row is written again. -/
theorem not_numbered_once_two_restarts :
    let c := Cipher.xchacha20Poly1305
    let env := Env.bare c Replica.defaultLimit "05"
    let secrets : String → Bytes := fun _ => List.replicate 32 0
    let before : List Move := [.restart env "05",
      .commit [(env, "05", .edit .contacts [⟨"a", some [1]⟩])], .restart env "05"]
    let between : List Move := [.restart env "05",
      .commit [(env, "05", .edit .contacts [⟨"b", some [2]⟩])]]
    let d₁ := course secrets {} before
    let d₂ := course secrets {} (before ++ .collect env "05" :: between)
    ProperAll c Replica.defaultLimit secrets {}
        (before ++ .collect env "05" :: (between ++ [.collect env "05"])) ∧
      ∃ o₁ ∈ d₁.handsOut env "05", ∃ o₂ ∈ d₂.handsOut env "05",
        o₁.message.topic = o₂.message.topic ∧ o₁.message.seq = o₂.message.seq ∧
        ∃ g₁ g₂, o₁.message.Says c (secrets "05") g₁ ∧ o₂.message.Says c (secrets "05") g₂ ∧
          g₁.entries ≠ g₂.entries := by
  intro c env secrets before between d₁ d₂
  have henv : env.Supplied c Replica.defaultLimit := Env.supplied_bare c Replica.defaultLimit "05"
  have hproper : ProperAll c Replica.defaultLimit secrets {}
      (before ++ .collect env "05" :: (between ++ [.collect env "05"])) :=
    ⟨henv, proper_commit (by simp [henv]) (by decide +kernel) (by decide +kernel), henv,
      ⟨henv, by decide +kernel⟩, henv,
      proper_commit (by simp [henv]) (by decide +kernel) (by decide +kernel),
      ⟨henv, by decide +kernel⟩, trivial⟩
  have hout₁ : (d₁.handsOut env "05").map (fun o => (o.message.topic, o.message.seq)) =
      [(.contacts, 2)] := by decide +kernel
  have hout₂ : (d₂.handsOut env "05").map (fun o => (o.message.topic, o.message.seq)) =
      [(.contacts, 2)] := by decide +kernel
  have hkeys₁ : ∀ r ∈ d₁.held.copy? "05" .contacts, r.entries.keys = ["a"] := by decide +kernel
  have hkeys₂ : ∀ r ∈ d₂.held.copy? "05" .contacts, r.entries.keys = ["a", "b"] := by
    decide +kernel
  obtain ⟨o₁, ho₁, htopic₁, hseq₁⟩ := exists_handsOut hout₁
  obtain ⟨o₂, ho₂, htopic₂, hseq₂⟩ := exists_handsOut hout₂
  obtain ⟨r₁, hr₁, hsays₁⟩ := says_of_course Cipher.faithful_xchacha20Poly1305 rfl
    hproper ho₁
  have hproper' : ProperAll c Replica.defaultLimit secrets {}
      ((before ++ .collect env "05" :: between) ++ [.collect env "05"]) := by
    rw [List.append_assoc]
    exact hproper
  obtain ⟨r₂, hr₂, hsays₂⟩ := says_of_course Cipher.faithful_xchacha20Poly1305 rfl
    hproper' ho₂
  rw [htopic₁] at hr₁
  rw [htopic₂] at hr₂
  have hne : r₁.generation.entries ≠ r₂.generation.entries := by
    intro heq
    have hkeys : r₁.entries.keys = r₂.entries.keys := congrArg SortedMap.keys heq
    rw [hkeys₁ r₁ hr₁, hkeys₂ r₂ hr₂] at hkeys
    exact absurd hkeys (by decide)
  exact ⟨hproper, o₁, ho₁, o₂, ho₂, htopic₁.trans htopic₂.symm, hseq₁.trans hseq₂.symm,
    r₁.generation, r₂.generation, hsays₁, hsays₂, hne⟩

end Device

end AccountSync
