import Mathlib.Data.List.Basic
import AccountSync.Proofs.Device.Loading
import AccountSync.Proofs.Replica.Transition
/-!
The life of an account's device: writes that commit, and new starts of the program between them.
What a device holds after its life is known from the plans of its uses (`Device.foldlM_effect_iff`),
so a life may be taken apart: single edits, single local writes and the shares of single topics, each
committed on its own, leave what the whole writes leave (`Device.held_live_parts`).
-/

namespace AccountSync

variable {c : Cipher} {limit : Nat} {account : String} {secret : Bytes} {env : Env}

/-- Makes changes one after the other; says of each whether it changed anything. -/
def Replica.changeAll : List Change → Replica → List Bool × Replica
  | [], r => ([], r)
  | change :: rest, r =>
    let (changed, r) := r.change change
    let (others, r) := changeAll rest r
    (changed :: others, r)

/-- A handler that sets and erases entries, and says whether it did. -/
def Handler.Honest (h : Handler) : Prop :=
  ∀ change r changed r', h.applyLocal change r = (.ok changed, r') →
    (∃ changes, r' = (r.changeAll changes).2) ∧ (changed = false → r' = r)

/-- The surroundings of a device that belongs to the account. -/
structure Env.Plain (c : Cipher) (limit : Nat) (account : String) (env : Env) : Prop where
  engine : env.engine = .plain c limit
  identity : env.identity = some account
  honest : ∀ topic, (env.handler topic).Honest

theorem Handler.honest_silent : Handler.silent.Honest := by
  intro change r changed r' happly
  obtain ⟨hchanged, rfl⟩ : changed = (r.change change).1 ∧ r' = (r.change change).2 := by
    cases happly
    exact ⟨rfl, rfl⟩
  refine ⟨⟨[change], rfl⟩, fun hfalse => ?_⟩
  have heff : ¬ r.Effective change := by
    rw [← Replica.change_changed_iff, ← hchanged, hfalse]
    decide
  rw [Replica.change_of_not_effective heff]

/-- The surroundings of a device whose own tables have no part in this. -/
def Env.bare (c : Cipher) (limit : Nat) (account : String) : Env :=
  { engine := .plain c limit, identity := some account, now := 0 }

theorem Env.plain_bare (c : Cipher) (limit : Nat) (account : String) :
    (bare c limit account).Plain c limit account :=
  ⟨rfl, rfl, fun _ => Handler.honest_silent⟩

/-- The surroundings of a device: the engine in use, and nonces of the length that it needs. -/
structure Env.Supplied (c : Cipher) (limit : Nat) (env : Env) : Prop where
  engine : env.engine = .plain c limit
  nonces : ∀ n, (env.nonce n).length = Cipher.nonceLength

theorem Env.supplied_bare (c : Cipher) (limit : Nat) (account : String) :
    (bare c limit account).Supplied c limit :=
  ⟨rfl, fun n => Bytes.length_ofNat Cipher.nonceLength n⟩

/-- Uses copies of an account one after the other. -/
def Held.useAll (account : String) (h : Held) (uses : List (Topic × Plan)) : Option Held :=
  uses.foldlM (fun h u => h.use ⟨account, u.1⟩ u.2) h

/-! ### Deeds -/

/-- What an account does within a write. -/
inductive Deed where
  | edit (topic : Topic) (changes : List Change)
  | follow (writes : List LocalWrite)
  | receive (messages : List Message)

namespace Deed

def call (account : String) : Deed → Call (List Bool)
  | edit topic changes => .edit ⟨account, topic⟩ (Replica.changeAll changes)
  | follow writes => .follow writes
  | receive messages => .receive account messages

/-- Local writes are taken one by one, and messages topic by topic. -/
def parts : Deed → List Deed
  | edit topic changes => [edit topic changes]
  | follow writes => writes.map fun write => follow [write]
  | receive messages => (Receive.shares messages).map fun share => receive share.2

/-- Which copies a deed uses, and how. -/
def uses (c : Cipher) (account : String) (env : Env) : Deed → List (Topic × Plan)
  | edit topic changes => [(topic, .edit env (Replica.changeAll changes))]
  | follow writes => (writes.filterMap (·.target? account)).map fun target =>
    (target.1, .follow env target.1 target.2)
  | receive messages => (Receive.shares messages).map fun share =>
    (share.1, .share c env ⟨account, share.1⟩ share.2)

/-- No messages are received for an account without a name. -/
def Refused (account : String) : Deed → Prop
  | edit _ _ | follow _ => False
  | receive _ => account = ""

instance (account : String) : DecidablePred (Refused account)
  | edit _ _ | follow _ => inferInstanceAs (Decidable False)
  | receive _ => inferInstanceAs (Decidable (account = ""))

/-- What a deed leaves of what is held. -/
def effect (c : Cipher) (account : String) (env : Env) (deed : Deed) (h : Held) : Option Held :=
  if deed.Refused account then none else h.useAll account (deed.uses c account env)

end Deed

theorem Held.useAll_follow (c : Cipher) (env : Env) (account : String) :
    ∀ (writes : List LocalWrite) (h : Held),
      writes.foldlM (fun h write => h.follow env account write) h =
        h.useAll account ((Deed.follow writes).uses c account env)
  | [], _ => rfl
  | write :: writes, h => by
    have ih := useAll_follow c env account writes
    simp only [useAll, Deed.uses] at ih ⊢
    rw [List.foldlM_cons]
    cases htarget : write.target? account with
    | none =>
      rw [List.filterMap_cons_none htarget, ← ih h]
      simp only [Held.follow, htarget]
      rfl
    | some target =>
      rw [List.filterMap_cons_some htarget, List.map_cons, List.foldlM_cons]
      simp only [Held.follow, htarget]
      exact bind_congr ih

theorem Write.leaves_deed (henv : env.Plain c limit account) (deed : Deed) (w : Work) :
    ((deed.call account).run env).leaves Work.held w = deed.effect c account env w.held := by
  cases deed with
  | edit topic changes =>
    refine (Step.leaves_map _ _ w).trans ((leaves_edit henv.engine ⟨account, topic⟩ _ w).trans ?_)
    exact (bind_pure (w.held.use _ _)).symm
  | follow writes =>
    refine (Step.leaves_map _ _ w).trans ?_
    refine (leaves_follow henv.engine henv.identity writes w).trans ?_
    exact w.held.useAll_follow c env account writes
  | receive messages =>
    refine (Step.leaves_map _ _ w).trans ((leaves_receive henv.engine account messages w).trans ?_)
    simp only [Held.receive, Deed.effect, Deed.Refused, Held.useAll, Deed.uses, List.foldlM_map]

/-! ### Parts of deeds -/

theorem Receive.pairwise_sorted (messages : List Message) :
    (sorted messages).Pairwise fun m m' => m.seq ≤ m'.seq :=
  (List.pairwise_mergeSort (by simp; omega) (by simp; omega) messages).imp of_decide_eq_true

theorem Receive.sorted_of_pairwise {messages : List Message}
    (h : messages.Pairwise fun m m' => m.seq ≤ m'.seq) : sorted messages = messages :=
  List.mergeSort_of_pairwise (h.imp fun hle => decide_eq_true hle)

/-- The messages of a topic, in the order in which they are merged. -/
def Receive.share (messages : List Message) (topic : Topic) : List Message :=
  (sorted messages).filter (·.topic = topic)

theorem Receive.mem_share {messages : List Message} {topic : Topic} {m : Message} :
    m ∈ share messages topic ↔ m ∈ messages ∧ m.topic = topic := by
  simp [share, sorted]

/-- The share of a topic is what a batch has for it, if anything. -/
theorem Receive.mem_shares {messages : List Message} {t : Topic} {share : List Message} :
    (t, share) ∈ shares messages ↔ (sorted messages).filter (·.topic = t) = share ∧ share ≠ [] := by
  simp only [shares, List.mem_filterMap]
  constructor
  · rintro ⟨t', -, h⟩
    split at h
    · cases h
    · obtain ⟨rfl, rfl⟩ := Prod.ext_iff.1 (Option.some.inj h)
      exact ⟨rfl, by assumption⟩
  · rintro ⟨rfl, hne⟩
    exact ⟨t, Topic.mem_byRank t, by split <;> simp_all⟩

theorem Receive.mem_map_shares {messages : List Message} {t : Topic} :
    t ∈ (shares messages).map Prod.fst ↔ share messages t ≠ [] := by
  rw [List.mem_map]
  constructor
  · rintro ⟨⟨t, share⟩, hshare, rfl⟩
    obtain ⟨rfl, hne⟩ := mem_shares.1 hshare
    exact hne
  · exact fun hne => ⟨(t, _), mem_shares.2 ⟨rfl, hne⟩, rfl⟩

/-- The share of a topic is a batch with that share alone. -/
theorem Receive.shares_share {messages : List Message} {share : Topic × List Message}
    (h : share ∈ shares messages) : shares share.2 = [share] := by
  obtain ⟨t, l⟩ := share
  obtain ⟨rfl, hne⟩ := mem_shares.1 h
  generalize hl : (sorted messages).filter (·.topic = t) = l at hne ⊢
  have hsorted : sorted l = l :=
    Receive.sorted_of_pairwise (hl ▸ (Receive.pairwise_sorted messages).filter _)
  have hof : ∀ m ∈ l, m.topic = t := by
    intro m hm
    rw [← hl] at hm
    simpa using (List.mem_filter.1 hm).2
  have hother : ∀ t' ≠ t, l.filter (·.topic = t') = [] := by
    intro t' ht'
    refine List.filter_eq_nil_iff.2 fun m hm => ?_
    simpa [hof m hm] using ht'.symm
  have hown : l.filter (·.topic = t) = l := List.filter_eq_self.2 (by simpa using hof)
  cases t <;> simp [shares, hsorted, Topic.byRank, hown, hother]

theorem Deed.uses_parts (c : Cipher) (account : String) (env : Env) (deed : Deed) :
    deed.parts.flatMap (uses c account env) = deed.uses c account env := by
  cases deed with
  | edit => rfl
  | follow writes =>
    simp only [parts, uses, List.flatMap_map]
    induction writes with
    | nil => rfl
    | cons write writes ih =>
      rw [List.flatMap_cons, ih]
      cases h : write.target? account <;> simp [h]
  | receive messages =>
    simp only [parts, uses, List.flatMap_map]
    have hone : ∀ share ∈ Receive.shares messages, Receive.shares share.2 = [share] :=
      fun share hshare => Receive.shares_share hshare
    rw [List.flatMap_congr fun share hshare => by rw [hone share hshare]]
    simp [List.map_eq_flatMap]

/-- A part of a deed uses one copy at most. -/
theorem Deed.uses_part {deed part : Deed} (h : part ∈ deed.parts) (c : Cipher) (account : String)
    (env : Env) : part.uses c account env = [] ∨ ∃ u, part.uses c account env = [u] := by
  cases deed with
  | edit topic changes =>
    obtain rfl := List.mem_singleton.1 h
    exact .inr ⟨_, rfl⟩
  | follow writes =>
    obtain ⟨write, -, rfl⟩ := List.mem_map.1 h
    cases htarget : write.target? account with
    | none => exact .inl (by simp [uses, htarget])
    | some target => exact .inr ⟨_, by simp only [uses, List.filterMap_cons_some htarget]; rfl⟩
  | receive messages =>
    obtain ⟨share, hshare, rfl⟩ := List.mem_map.1 h
    exact .inr ⟨_, by simp only [uses, Receive.shares_share hshare]; rfl⟩

theorem Deed.refused_part {deed part : Deed} (h : part ∈ deed.parts) :
    part.Refused account ↔ deed.Refused account := by
  cases deed with
  | edit topic changes => rw [List.mem_singleton.1 h]
  | follow writes =>
    obtain ⟨write, -, rfl⟩ := List.mem_map.1 h
    rfl
  | receive messages =>
    obtain ⟨share, -, rfl⟩ := List.mem_map.1 h
    rfl

theorem Deed.foldlM_effect : ∀ {deeds : List Deed}, (∀ deed ∈ deeds, ¬ deed.Refused account) →
    ∀ h : Held, deeds.foldlM (fun h deed => deed.effect c account env h) h =
      h.useAll account (deeds.flatMap (uses c account env))
  | [], _, _ => rfl
  | deed :: deeds, hallowed, h => by
    obtain ⟨hdeed, hdeeds⟩ := List.forall_mem_cons.1 hallowed
    rw [List.foldlM_cons, List.flatMap_cons, Held.useAll, List.foldlM_append, effect, if_neg hdeed]
    exact bind_congr (foldlM_effect hdeeds)

/-- A deed leaves what its parts leave, one after the other. -/
theorem Deed.foldlM_effect_parts {deed : Deed} {h h' : Held}
    (heffect : deed.effect c account env h = some h') :
    deed.parts.foldlM (fun h part => part.effect c account env h) h = some h' := by
  rw [effect] at heffect
  split at heffect
  · cases heffect
  · rename_i hallowed
    rw [foldlM_effect fun part hpart => mt (refused_part hpart).1 hallowed, uses_parts, heffect]

/-! ### Events -/

namespace Device

/-- An event in the life of a device. -/
inductive Event where
  /-- The program is started anew on the same database, and loads the account. -/
  | restart (env : Env)
  /-- A write that does one thing after the other. -/
  | commit (deeds : List (Env × Deed))

/-- The body of a write. -/
def body (account : String) (deeds : List (Env × Deed)) : Write (List (Reply (List Bool))) :=
  Step.each (fun p => (p.2.call account).run p.1) deeds

/-- The device after an event. -/
def after (account : String) (secret : Bytes) (d : Device) : Event → Device
  | .restart env => d.reload env account secret
  | .commit deeds => (d.write (body account deeds)).2

/-- The device after several events. -/
def live (account : String) (secret : Bytes) (d : Device) (es : List Event) : Device :=
  es.foldl (after account secret) d

namespace Event

def Plain (c : Cipher) (limit : Nat) (account : String) : Event → Prop
  | restart env => env.Plain c limit account
  | commit deeds => ∀ p ∈ deeds, p.1.Plain c limit account

/-- The write ends with a result. -/
def Commits (account : String) (d : Device) : Event → Prop
  | restart _ => True
  | commit deeds => ∃ replies, (d.write (body account deeds)).1 = .ok replies

instance (account : String) (d : Device) : DecidablePred (Commits account d)
  | restart _ => inferInstanceAs (Decidable True)
  | commit deeds => match h : (d.write (body account deeds)).1 with
    | .ok replies => isTrue ⟨replies, h⟩
    | .error _ => isFalse fun ⟨_, hreplies⟩ => by cases h.symm.trans hreplies

/-- Every part of a deed is committed on its own. -/
def parts : Event → List Event
  | restart env => [restart env]
  | commit deeds => deeds.flatMap fun p => p.2.parts.map fun part => commit [(p.1, part)]

/-- What an event leaves of what is held. -/
def effect (c : Cipher) (limit : Nat) (account : String) (secret : Bytes) (e : Event) (h : Held) :
    Option Held :=
  match e with
  | restart _ => some ⟨h.database.loadCopies (.plain c limit) account secret, h.database⟩
  | commit deeds => deeds.foldlM (fun h p => p.2.effect c account p.1 h) h

end Event

/-- Something holds of each event and of the device that it happens to. -/
def Each (account : String) (secret : Bytes) (P : Device → Event → Prop) :
    Device → List Event → Prop
  | _, [] => True
  | d, e :: es => P d e ∧ Each account secret P (d.after account secret e) es

instance Each.decidable (account : String) (secret : Bytes) (P : Device → Event → Prop)
    [∀ d e, Decidable (P d e)] : ∀ d es, Decidable (Each account secret P d es)
  | _, [] => inferInstanceAs (Decidable True)
  | d, e :: es =>
    have := decidable account secret P (d.after account secret e) es
    inferInstanceAs (Decidable (_ ∧ _))

/-- Something holds of the device before and after each event. -/
def Always (account : String) (secret : Bytes) (P : Device → Prop) : Device → List Event → Prop
  | d, [] => P d
  | d, e :: es => P d ∧ Always account secret P (d.after account secret e) es

instance Always.decidable (account : String) (secret : Bytes) (P : Device → Prop)
    [DecidablePred P] : ∀ d es, Decidable (Always account secret P d es)
  | d, [] => inferInstanceAs (Decidable (P d))
  | d, e :: es =>
    have := decidable account secret P (d.after account secret e) es
    inferInstanceAs (Decidable (_ ∧ _))

/-- A write commits with what its body leaves. -/
theorem write_commits_iff {α : Type} {x : Write α} {d : Device} {h : Held} :
    (∃ a, (d.write x).1 = .ok a) ∧ (d.write x).2.held = h ↔
      x.leaves Work.held d.start = some h := by
  unfold write Step.leaves
  rcases x d.start with ⟨t | a, w⟩
  · simp
  · simp only [Except.ok.injEq, exists_eq', true_and, Option.some.injEq]
    rfl

/-- An event takes place and leaves `h` if its effect on what the device holds is `h`. -/
theorem effect_iff {d : Device} {e : Event} {h : Held} (he : e.Plain c limit account) :
    e.Commits account d ∧ (d.after account secret e).held = h ↔
      e.effect c limit account secret d.held = some h := by
  cases e with
  | restart env =>
    rw [after, held_reload, Env.Plain.engine he, Event.effect, Option.some.injEq]
    exact and_iff_right trivial
  | commit deeds =>
    refine write_commits_iff.trans ?_
    rw [body, Step.leaves_each fun p hp w => Write.leaves_deed (he p hp) p.2 w]
    rfl

/-- A life takes place and leaves `h` if the effects of its events lead to `h`. -/
theorem foldlM_effect_iff {h : Held} : ∀ {es : List Event} {d : Device},
    (∀ e ∈ es, e.Plain c limit account) →
      (Each account secret (fun d e => e.Commits account d) d es ∧
          (d.live account secret es).held = h ↔
        es.foldlM (fun h e => e.effect c limit account secret h) d.held = some h)
  | [], d, _ => by simp [Each, live]
  | e :: es, d, hplain => by
    obtain ⟨he, hes⟩ := List.forall_mem_cons.1 hplain
    have ih := foldlM_effect_iff (h := h) (d := d.after account secret e) hes
    rw [List.foldlM_cons, Option.bind_eq_bind, Option.bind_eq_some_iff]
    constructor
    · rintro ⟨⟨hcommit, hrest⟩, hlive⟩
      exact ⟨_, (effect_iff he).1 ⟨hcommit, rfl⟩, ih.1 ⟨hrest, hlive⟩⟩
    · rintro ⟨h₁, heffect, hrest⟩
      obtain ⟨hcommit, rfl⟩ := (effect_iff he).2 heffect
      obtain ⟨hall, hlive⟩ := ih.2 hrest
      exact ⟨⟨hcommit, hall⟩, hlive⟩

/-! ### Lives taken apart -/

/-- What steps do, the parts of the steps do. -/
theorem foldlM_flatMap_of_some {σ α β : Type} {f : σ → α → Option σ} {g : σ → β → Option σ}
    {split : α → List β} (h : ∀ a s s', f s a = some s' → (split a).foldlM g s = some s') :
    ∀ {l : List α} {s s' : σ}, l.foldlM f s = some s' → (l.flatMap split).foldlM g s = some s'
  | [], _, _, hl => hl
  | a :: l, s, s', hl => by
    rw [List.foldlM_cons, Option.bind_eq_bind, Option.bind_eq_some_iff] at hl
    obtain ⟨s₁, ha, hl⟩ := hl
    rw [List.flatMap_cons, List.foldlM_append, h a s s₁ ha]
    exact foldlM_flatMap_of_some h hl

theorem Event.foldlM_effect_parts {e : Event} {h h' : Held}
    (heffect : e.effect c limit account secret h = some h') :
    e.parts.foldlM (fun h part => part.effect c limit account secret h) h = some h' := by
  cases e with
  | restart env =>
    rw [parts, List.foldlM_cons, heffect]
    rfl
  | commit deeds =>
    refine foldlM_flatMap_of_some (fun p h h' hp => ?_) heffect
    rw [List.foldlM_map]
    have hone : ∀ (h : Held) (part : Deed),
        (commit [(p.1, part)]).effect c limit account secret h = part.effect c account p.1 h :=
      fun h part => bind_pure _
    simp only [hone]
    exact Deed.foldlM_effect_parts hp

theorem Event.plain_part {e part : Event} (he : e.Plain c limit account) (hpart : part ∈ e.parts) :
    part.Plain c limit account := by
  cases e with
  | restart env =>
    obtain rfl := List.mem_singleton.1 hpart
    exact he
  | commit deeds =>
    obtain ⟨p, hp, hpart⟩ := List.mem_flatMap.1 hpart
    obtain ⟨deed, -, rfl⟩ := List.mem_map.1 hpart
    exact List.forall_mem_singleton.2 (he p hp)

/-- If a life takes place, its parts do, and leave what it leaves. -/
theorem held_live_parts {d : Device} {es : List Event} (hplain : ∀ e ∈ es, e.Plain c limit account)
    (hcommits : Each account secret (fun d e => e.Commits account d) d es) :
    Each account secret (fun d e => e.Commits account d) d (es.flatMap Event.parts) ∧
      (d.live account secret (es.flatMap Event.parts)).held = (d.live account secret es).held := by
  have hwhole := (foldlM_effect_iff hplain).1 ⟨hcommits, rfl⟩
  refine (foldlM_effect_iff fun part hpart => ?_).2
    (foldlM_flatMap_of_some (fun e h h' he => Event.foldlM_effect_parts he) hwhole)
  obtain ⟨e, he, hpart⟩ := List.mem_flatMap.1 hpart
  exact Event.plain_part (hplain e he) hpart

end Device

end AccountSync
