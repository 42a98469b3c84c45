import AccountSync.Proofs.Device.Numbering
import AccountSync.Proofs.Swarm.Deletion
import AccountSync.Proofs.Swarm.Refusal
/-!
Messages that reach a device twice: some of them first, and later all of them. What it has then is
what all of them at once would have left, as long as no message was refused whose writes it lacks
(`Device.redelivered`). With messages of several devices that can happen, because the first of two
batches may take a copy past a message of the second (`Device.not_redelivered_concurrent`).
-/

namespace AccountSync

variable {ι : Type} {c : Cipher} {limit : Nat} {account : String} {secret : Bytes} {topic : Topic}
  {env : Env}

/-! ### Messages that are stored -/

/-- A message is the stored one, as a device receives it. -/
structure Message.Carries (m : Message) (p : Post ι) : Prop where
  seq : m.seq = p.content.seq
  hash : m.hash = some p.hash
  payload : m.payload = p.payload

/-- A stored message of a topic is among those received. -/
def Carried (posts : List (Post ι)) (topic : Topic) (messages : List Message) (p : Post ι) : Prop :=
  p ∈ posts ∧ ∃ m ∈ messages, m.topic = topic ∧ m.Carries p

/-- What is merged is a batch of stored messages. -/
theorem Receive.exists_batch {posts : List (Post ι)} : ∀ {share : List Message},
    (∀ m ∈ share, ∃ p ∈ posts, m.Carries p) →
      ∃ l : List (Post ι), batch share = l.map Post.stored ∧
        (∀ p ∈ l, p ∈ posts ∧ ∃ m ∈ share, m.Carries p) ∧ ∀ m ∈ share, ∃ p ∈ l, m.Carries p
  | [], _ => ⟨[], rfl, by simp, by simp⟩
  | m :: share, h => by
    obtain ⟨⟨p, hp, hm⟩, hshare⟩ := List.forall_mem_cons.1 h
    obtain ⟨l, hbatch, hl, hall⟩ := exists_batch hshare
    refine ⟨p :: l, ?_, List.forall_mem_cons.2 ⟨⟨hp, m, List.mem_cons_self, hm⟩, ?_⟩,
      List.forall_mem_cons.2 ⟨⟨p, List.mem_cons_self, hm⟩, ?_⟩⟩
    · have hone : m.hash.map (·, m.payload) = some p.stored := by
        rw [hm.hash, hm.payload]
        rfl
      rw [batch, List.map_cons, ← hbatch, batch]
      exact List.filterMap_cons_some (f := fun m : Message => m.hash.map (·, m.payload)) hone
    · intro q hq
      obtain ⟨hpost, m', hm', hcarries⟩ := hl q hq
      exact ⟨hpost, m', List.mem_cons_of_mem m hm', hcarries⟩
    · intro m' hm'
      obtain ⟨q, hq, hcarries⟩ := hall m' hm'
      exact ⟨q, List.mem_cons_of_mem p hq, hcarries⟩

/-- A stored message, as a device receives it. -/
def Post.message (topic : Topic) (p : Post ι) : Message :=
  ⟨topic, p.content.seq, p.payload, none, some p.hash⟩

theorem Post.carries_message (topic : Topic) (p : Post ι) : (p.message topic).Carries p :=
  ⟨rfl, rfl, rfl⟩

/-- Of stored messages, a device that receives some gets these. -/
theorem carried_message {posts l : List (Post ι)} {p : Post ι}
    (hone : Replica.OnePerHash (· ∈ posts)) (hl : ∀ p ∈ l, p ∈ posts) :
    Carried posts topic (l.map (Post.message topic)) p ↔ p ∈ l := by
  constructor
  · rintro ⟨hp, m, hm, -, hcarries⟩
    obtain ⟨q, hq, rfl⟩ := List.mem_map.1 hm
    have hhash : p.hash = q.hash := (Option.some.inj hcarries.hash).symm
    exact hone p q hp (hl q hq) hhash ▸ hq
  · intro hp
    exact ⟨hl p hp, _, List.mem_map_of_mem hp, rfl, p.carries_message topic⟩

theorem Receive.batch_message (l : List (Post ι)) :
    batch (l.map (Post.message topic)) = l.map Post.stored := by
  rw [batch, List.filterMap_map]
  exact congrFun (List.filterMap_eq_map (f := Post.stored)) l

theorem Receive.share_message {l : List (Post ι)}
    (h : l.Pairwise fun p q => p.content.seq ≤ q.content.seq) :
    share (l.map (Post.message topic)) topic = l.map (Post.message topic) := by
  have hsorted : sorted (l.map (Post.message topic)) = l.map (Post.message topic) :=
    sorted_of_pairwise (List.pairwise_map.2 h)
  rw [share, hsorted, List.filter_eq_self]
  intro m hm
  obtain ⟨p, -, rfl⟩ := List.mem_map.1 hm
  exact decide_eq_true rfl

/-! ### One batch -/

theorem Plan.share_eq_some {key : CopyKey} {share : List Message} {r r' : Replica} {k : Keeping}
    (h : Plan.share c env key share r = some (r', k)) :
    r' = (r.merge c (Receive.batch share)).2 := by
  simp only [Plan.share] at h
  split at h
  · exact (Prod.ext_iff.1 (Option.some.inj h)).1.symm
  · split at h
    · exact (Prod.ext_iff.1 (Option.some.inj h)).1.symm
    · cases h

/-- Uses of copies load none. -/
theorem Held.has_of_useAll {r : Replica} : ∀ {uses : List (Topic × Plan)} {h h' : Held},
    h.useAll account uses = some h' → h'.Has account topic r → ∃ q, h.Has account topic q
  | [], _, _, huse, hr => ⟨r, Option.some.inj huse ▸ hr⟩
  | (t, plan) :: uses, h, h', huse, hr => by
    rw [useAll, List.foldlM_cons, Option.bind_eq_bind, Option.bind_eq_some_iff] at huse
    obtain ⟨h₁, hone, hrest⟩ := huse
    obtain ⟨q, hq⟩ := has_of_useAll hrest hr
    rcases use_eq_some hone with ⟨rfl, -⟩ | ⟨x, x', k, hx, -, hcopies, -⟩
    · exact ⟨q, hq⟩
    · by_cases ht : topic = t
      · subst ht
        exact ⟨x, hx⟩
      · have hkey : (⟨account, topic⟩ : CopyKey) ≠ ⟨account, t⟩ := fun heq =>
          ht (CopyKey.mk.inj heq).2
        rw [Has, hcopies, SortedMap.find?_insert_of_ne hkey] at hq
        exact ⟨q, hq⟩

namespace Device

/-- A device receives messages in a write that commits. -/
def Receives (env : Env) (account : String) (messages : List Message) (d d' : Device) : Prop :=
  (∃ outcomes, (d.write (Write.receive env account messages)).1 = .ok outcomes) ∧
    (d.write (Write.receive env account messages)).2 = d'

variable {d d' : Device} {messages : List Message} {r : Replica}

theorem Receives.useAll (henv : env.engine = .plain c limit)
    (h : Receives env account messages d d') :
    d.held.useAll account ((Receive.shares messages).map fun share =>
      (share.1, .share c env ⟨account, share.1⟩ share.2)) = some d'.held := by
  obtain ⟨hcommits, rfl⟩ := h
  have hleaves := write_commits_iff.1 ⟨hcommits, rfl⟩
  rw [Write.leaves_receive henv, Held.receive] at hleaves
  split at hleaves
  · cases hleaves
  · rw [Held.useAll, List.foldlM_map]
    exact hleaves

/-- A copy merges what a batch has for its topic. -/
theorem Receives.copy (henv : env.engine = .plain c limit)
    (h : Receives env account messages d d') (hr : d.held.Has account topic r) :
    ∃ r', d'.held.Has account topic r' ∧ r'.fixed = r.fixed ∧ r'.toStanding =
      (r.merge c (Receive.batch (Receive.share messages topic))).2.toStanding := by
  have huse := h.useAll henv
  have htopics : (((Receive.shares messages).map fun share =>
      (share.1, Plan.share c env ⟨account, share.1⟩ share.2)).map Prod.fst).Nodup := by
    rw [List.map_map]
    exact Receive.nodup_shares messages
  by_cases hshare : Receive.share messages topic = []
  · have hnone : topic ∉ (((Receive.shares messages).map fun share =>
        (share.1, Plan.share c env ⟨account, share.1⟩ share.2)).map Prod.fst) := by
      rw [List.map_map]
      exact fun hmem => Receive.mem_map_shares.1 hmem hshare
    have hframe : d'.held.copies.find? ⟨account, topic⟩ = d.held.copies.find? ⟨account, topic⟩ :=
      (Held.useAll_frame huse fun _ => hnone).1
    rw [hshare]
    exact ⟨r, hframe.trans hr, rfl, rfl⟩
  · have hmem : (topic, Plan.share c env ⟨account, topic⟩ (Receive.share messages topic)) ∈
        (Receive.shares messages).map fun share =>
          (share.1, Plan.share c env ⟨account, share.1⟩ share.2) :=
      List.mem_map.2 ⟨(topic, _), Receive.mem_shares.2 ⟨rfl, hshare⟩, rfl⟩
    obtain ⟨h₁, h₂, hone, hbefore, hafter, -⟩ := Held.use_of_useAll huse htopics hmem
    rcases Held.use_eq_some hone with ⟨-, hnone⟩ | ⟨q, q', k, hq, hplan, hcopies, -⟩
    · exact absurd (hbefore.trans hr) (hnone r)
    · obtain rfl : r = q := Slot.ready_unique (hbefore.trans hr) hq
      have hmerged := Plan.share_eq_some hplan
      refine ⟨k.copy q', ?_, ?_, ?_⟩
      · rw [Held.Has, hafter, hcopies, SortedMap.find?_insert_self]
      · rw [Keeping.copy_fixed, hmerged, Replica.merge_fixed]
      · rw [Keeping.copy_toStanding, hmerged]

theorem Receives.live?_eq_none (henv : env.engine = .plain c limit)
    (h : Receives env account messages d d') (hnone : d.held.live? account topic = none) :
    d'.held.live? account topic = none := by
  rw [Option.eq_none_iff_forall_ne_some] at hnone ⊢
  intro live hlive
  obtain ⟨r, hr, -⟩ := Held.live?_eq_some.1 hlive
  obtain ⟨q, hq⟩ := Held.has_of_useAll (h.useAll henv) hr
  exact hnone q.live (Held.live?_eq_some.2 ⟨q, hq, rfl⟩)

/-- A copy takes the stored messages of its topic that are among those received. -/
theorem Receives.delivers (henv : env.engine = .plain c limit)
    (h : Receives env account messages d d') {s : Secret} {posts : List (Post ι)}
    (hposted : Swarm.Posted c topic s limit posts)
    (hstored : ∀ m ∈ messages, m.topic = topic → ∃ p ∈ posts, m.Carries p)
    (hr : d.held.Has account topic r) (hfixed : r.fixed = (topic, s, limit)) :
    ∃ r', d'.held.Has account topic r' ∧ r'.fixed = (topic, s, limit) ∧
      Replica.Delivered (Carried posts topic messages) r r' := by
  obtain ⟨r', hr', hfixed', hmerged⟩ := h.copy henv hr
  have hshare : ∀ m ∈ Receive.share messages topic, ∃ p ∈ posts, m.Carries p := fun m hm =>
    hstored m (Receive.mem_share.1 hm).1 (Receive.mem_share.1 hm).2
  obtain ⟨l, hbatch, hl, hall⟩ := Receive.exists_batch hshare
  have hreads : ∀ p ∈ l, r.Reads c p := fun p hp => hposted.reads p (hl p hp).1 r hfixed
  rw [hbatch, Replica.merge_eq_takeAll hreads] at hmerged
  refine ⟨r', hr', hfixed'.trans hfixed, l, hmerged, fun p => ⟨fun hp => ?_, ?_⟩⟩
  · obtain ⟨hpost, m, hm, hcarries⟩ := hl p hp
    obtain ⟨hm, htopic⟩ := Receive.mem_share.1 hm
    exact ⟨hpost, m, hm, htopic, hcarries⟩
  · rintro ⟨hpost, m, hm, htopic, hcarries⟩
    obtain ⟨q, hq, hcarries'⟩ := hall m (Receive.mem_share.2 ⟨hm, htopic⟩)
    have hhash : p.hash = q.hash := Option.some.inj (hcarries.hash.symm.trans hcarries'.hash)
    rwa [hposted.unique p hpost q (hl q hq).1 hhash]

end Device

/-! ### When a batch can be taken -/

/-- The handlers of all topics take every merge. -/
def Env.Welcoming (env : Env) : Prop :=
  ∀ topic r update, (env.handler topic).apply r update = .ok ()

/-- The rows of an account can be written, and none of its copies is broken. -/
structure Held.Usable (account : String) (h : Held) : Prop where
  rows : h.database.Fetches account
  ready : ∀ topic, h.copies.find? ⟨account, topic⟩ ≠ some .broken

theorem Keeping.exists_rows {db : Database} (hf : db.Fetches account) (k : Keeping) (key : CopyKey)
    (r : Replica) : ∃ db', k.rows db key r = some db' := by
  obtain ⟨t, htable, htimed, -⟩ := hf
  have ht := Database.timedTable_ok_iff.2 ⟨htable, htimed⟩
  cases k with
  | save time => exact ⟨_, by simp only [rows, Database.upsert, ht]; rfl⟩
  | refresh time =>
    simp only [rows, Database.touch, ht, bind, Except.bind]
    cases t.rows.find? ⟨key.account, key.topic.tag⟩ <;> exact ⟨_, rfl⟩
  | leave => exact ⟨db, rfl⟩

theorem Held.Usable.use {h : Held} (husable : h.Usable account) {plan : Plan}
    (hplan : ∀ r, ∃ r' k, plan r = some (r', k)) :
    ∃ h', h.use ⟨account, topic⟩ plan = some h' ∧ h'.Usable account := by
  cases hslot : h.copies.find? ⟨account, topic⟩ with
  | none =>
    refine ⟨h, ?_, husable⟩
    simp only [Held.use, hslot]
  | some slot =>
    cases slot with
    | broken => exact absurd hslot (husable.ready topic)
    | ready r =>
      obtain ⟨r', k, hr'⟩ := hplan r
      obtain ⟨db, hdb⟩ := k.exists_rows husable.rows ⟨account, topic⟩ r'
      refine ⟨⟨h.copies.insert ⟨account, topic⟩ (.ready (k.copy r')), db⟩, ?_,
        (Keeping.rows_eq_some hdb).1 husable.rows, fun t => ?_⟩
      · rw [Held.use_ready hslot hr', hdb]
        rfl
      · by_cases ht : t = topic
        · subst ht
          rw [SortedMap.find?_insert_self]
          simp
        · rw [SortedMap.find?_insert_of_ne fun heq => ht (CopyKey.mk.inj heq).2]
          exact husable.ready t

theorem Held.Usable.useAll : ∀ {uses : List (Topic × Plan)} {h : Held}, h.Usable account →
    (∀ u ∈ uses, ∀ r, ∃ r' k, u.2 r = some (r', k)) →
      ∃ h', h.useAll account uses = some h' ∧ h'.Usable account
  | [], h, husable, _ => ⟨h, rfl, husable⟩
  | (t, plan) :: uses, h, husable, hplans => by
    obtain ⟨hplan, hrest⟩ := List.forall_mem_cons.1 hplans
    obtain ⟨h₁, hone, husable₁⟩ := husable.use hplan
    obtain ⟨h', hall, husable'⟩ := husable₁.useAll hrest
    refine ⟨h', ?_, husable'⟩
    rw [Held.useAll, List.foldlM_cons]
    exact (congrArg (· >>= _) hone).trans hall

theorem Plan.exists_share (hwelcoming : env.Welcoming) (key : CopyKey) (share : List Message)
    (r : Replica) : ∃ r' k, Plan.share c env key share r = some (r', k) := by
  simp only [Plan.share, hwelcoming key.topic]
  split
  · exact ⟨_, _, rfl⟩
  · exact ⟨_, _, rfl⟩

namespace Device

variable {d d' : Device} {r : Replica}

/-- A batch is taken if nothing stands in its way. -/
theorem exists_receives (henv : env.engine = .plain c limit) (hwelcoming : env.Welcoming)
    (haccount : account ≠ "") (husable : d.held.Usable account) (messages : List Message) :
    ∃ d', Receives env account messages d d' ∧ d'.held.Usable account := by
  have hplans : ∀ u ∈ (Receive.shares messages).map fun share =>
      (share.1, Plan.share c env ⟨account, share.1⟩ share.2), ∀ r, ∃ r' k, u.2 r = some (r', k) := by
    intro u hu r
    obtain ⟨share, -, rfl⟩ := List.mem_map.1 hu
    exact Plan.exists_share hwelcoming _ _ r
  obtain ⟨h', hall, husable'⟩ := husable.useAll hplans
  have hleaves : (Write.receive env account messages).leaves Work.held d.start = some h' := by
    rw [Write.leaves_receive henv, Held.receive, if_neg haccount]
    rwa [Held.useAll, List.foldlM_map] at hall
  obtain ⟨hcommits, rfl⟩ := write_commits_iff.2 hleaves
  exact ⟨_, ⟨hcommits, rfl⟩, husable'⟩

/-- Nothing stands in the way right after a load. -/
theorem usable_reload (henv : env.engine = .plain c limit) {d : Device}
    (hfetch : d.database.Fetches account) (hsecret : secret ≠ []) :
    (d.reload env account secret).held.Usable account := by
  rw [held_reload, henv]
  refine ⟨hfetch, fun t => ?_⟩
  rw [Database.find?_loadCopies _ _ _ t hfetch hsecret]
  cases ((Engine.plain c limit).start t secret
    ((d.database.row? ⟨account, t⟩).map RowData.data)).toOption <;> simp

/-- A topic without a row is loaded as a fresh copy. -/
theorem has_reload_iff (henv : env.engine = .plain c limit) {d : Device} {s : Secret}
    (hfetch : d.database.Fetches account) (hsecret : Secret.ofBytes secret = .ok s)
    (hdata : d.database.data? ⟨account, topic⟩ = none) :
    (d.reload env account secret).held.Has account topic r ↔ r = .fresh topic s limit := by
  have hne : secret ≠ [] := by
    rintro rfl
    cases hsecret
  have hstart : (Engine.plain c limit).start topic secret
      ((d.database.row? ⟨account, topic⟩).map RowData.data) = .ok (.fresh topic s limit) := by
    rw [← Database.data?, hdata]
    simp only [Engine.plain, hsecret]
    rfl
  rw [held_reload, henv, Held.Has, Database.find?_loadCopies _ _ _ topic hfetch hne, hstart]
  constructor
  · intro heq
    exact (Slot.ready.inj (Option.some.inj heq)).symm
  · rintro rfl
    rfl

/-! ### Some messages first, and then all -/

/-- A device that was just loaded receives some messages of the account's devices and then all of
them, or all of them at once; each write commits. In each topic it has the same in the end, unless it
has refused a message as older than its generation and lacks a write of it. Nothing of that kind
happens where the messages with the highest number contain all others, and all that was loaded, and
do not differ in more than two ways. -/
theorem redelivered [DecidableEq ι] (hc : c.Faithful) (hlimit : limit < UInt64.size) {s : Secret}
    (hsecret : Secret.ofBytes secret = .ok s) {swarm : Topic → Swarm ι}
    (hswarm : ∀ t, Swarm.Reachable c t s limit (swarm t))
    (hsmall : ∀ t i, ((swarm t).replica i).seq < 9223372036854775808) {part all : List Message}
    (hstored : ∀ m ∈ all, ∃ p ∈ (swarm m.topic).posts, m.Carries p) (hpart : part ⊆ all)
    {env env₁ env₂ env₃ : Env} (henv : env.engine = .plain c limit)
    (henv₁ : env₁.engine = .plain c limit) (henv₂ : env₂.engine = .plain c limit)
    (henv₃ : env₃.engine = .plain c limit) {d₀ d d₁ d₂ d₃ : Device}
    (hload : d₀.reload env account secret = d)
    (hbacked : ∀ t r, d.held.Has account t r → r.Backed (· ∈ (swarm t).posts))
    (h₁ : Receives env₁ account part d d₁) (h₂ : Receives env₂ account all d₁ d₂)
    (h₃ : Receives env₃ account all d d₃) (t : Topic) :
    (d₂.held.live? account t = d₃.held.live? account t ∨
      ∃ p, Carried (swarm t).posts t all p ∧ ∃ r, r.Misses p ∧
        (d₂.held.Has account t r ∨ d₃.held.Has account t r)) ∧
    ∀ p q, Replica.Tops (Carried (swarm t).posts t all) p q →
      (∀ r, d.held.Has account t r → r.Under p q) →
        d₂.held.live? account t = d₃.held.live? account t := by
  have hposted := ((hswarm t).sound hc hlimit (hsmall t)).posted
  have hone : Replica.OnePerHash (Carried (swarm t).posts t all) := fun p q hp hq =>
    hposted.unique p hp.1 q hq.1
  have hstored' : ∀ {l}, l ⊆ all → ∀ m ∈ l, m.topic = t → ∃ p ∈ (swarm t).posts, m.Carries p := by
    rintro l hl m hm rfl
    exact hstored m (hl hm)
  cases hlive : d.held.live? account t with
  | none =>
    have hsame : d₂.held.live? account t = d₃.held.live? account t := by
      rw [h₂.live?_eq_none henv₂ (h₁.live?_eq_none henv₁ hlive), h₃.live?_eq_none henv₃ hlive]
    exact ⟨.inl hsame, fun _ _ _ _ => hsame⟩
  | some live =>
    obtain ⟨r, hr, -⟩ := Held.live?_eq_some.1 hlive
    have hfixed : r.fixed = (t, s, limit) := by
      rw [← hload, held_reload, henv] at hr
      obtain ⟨-, -, hstart⟩ := Held.start_of_loaded hr
      obtain ⟨s', saved, hs', -, rfl⟩ := Engine.start_eq_ok hstart
      rw [hsecret] at hs'
      obtain rfl := Except.ok.inj hs'
      rfl
    have hback : r.Backed (Carried (swarm t).posts t all) := fun p hp => hbacked t r hr p hp.1
    obtain ⟨r₁, hr₁, hfixed₁, hdelivered₁⟩ := h₁.delivers henv₁ hposted (hstored' hpart) hr hfixed
    obtain ⟨r₂, hr₂, -, hdelivered₂⟩ := h₂.delivers henv₂ hposted (hstored' fun _ => id) hr₁ hfixed₁
    obtain ⟨r₃, hr₃, -, hdelivered₃⟩ := h₃.delivers henv₃ hposted (hstored' fun _ => id) hr hfixed
    have hsub : ∀ p, Carried (swarm t).posts t part p → Carried (swarm t).posts t all p :=
      fun p ⟨hp, m, hm, hcarries⟩ => ⟨hp, m, hpart hm, hcarries⟩
    have hsame : r₂.entries = r₃.entries →
        d₂.held.live? account t = d₃.held.live? account t := by
      intro heq
      rw [Held.live?_eq_some.2 ⟨r₂, hr₂, rfl⟩, Held.live?_eq_some.2 ⟨r₃, hr₃, rfl⟩, Replica.live, heq,
        Replica.live]
    refine ⟨?_, fun p q htops hunder => hsame ?_⟩
    · rcases hdelivered₁.entries_eq_or_misses hone hback hsub hdelivered₂ hdelivered₃ with
        heq | ⟨p, hp, hmisses | hmisses⟩
      · exact .inl (hsame heq)
      · exact .inr ⟨p, hp, r₂, hmisses, .inl hr₂⟩
      · exact .inr ⟨p, hp, r₃, hmisses, .inr hr₃⟩
    · have hstage : r.Stage p q := .neither (hunder r hr)
      have hback₁ := hdelivered₁.backed hsub hone hback
      rw [hdelivered₂.entries_of_tops hone hback₁ htops
          (hdelivered₁.stage hsub hone hback htops hstage),
        hdelivered₃.entries_of_tops hone hback htops hstage]

/-! ### Messages of two devices -/

/-- A batch that is sorted already and has one topic is taken message by message. -/
theorem Receives.takeAll (henv : env.engine = .plain c limit) {l : List (Post ι)}
    (h : Receives env account (l.map (Post.message topic)) d d')
    (hsorted : l.Pairwise fun p q => p.content.seq ≤ q.content.seq)
    (hreads : ∀ p ∈ l, r.Reads c p) (hr : d.held.Has account topic r) :
    ∃ r', d'.held.Has account topic r' ∧ r'.fixed = r.fixed ∧
      r'.toStanding = (r.takeAll l).toStanding := by
  obtain ⟨r', hr', hfixed, hmerged⟩ := h.copy henv hr
  rw [Receive.share_message hsorted, Receive.batch_message,
    Replica.merge_eq_takeAll hreads] at hmerged
  exact ⟨r', hr', hfixed, hmerged⟩

/-- Nothing keeps a device without rows from receiving messages, some of them first or all at once. -/
theorem exists_redelivery (c : Cipher) (part all : List Message) :
    let env := Env.bare c Replica.defaultLimit "05"
    ∃ d d₁ d₂ d₃, ({} : Device).reload env "05" (List.replicate 32 0) = d ∧
      (∀ t r, d.held.Has "05" t r ↔ r = .fresh t default) ∧
      Receives env "05" part d d₁ ∧ Receives env "05" all d₁ d₂ ∧ Receives env "05" all d d₃ := by
  intro env
  have hfetch : ({} : Device).database.Fetches "05" :=
    ⟨_, rfl, rfl, fun tag row h => by cases h⟩
  have hwelcoming : env.Welcoming := fun _ _ _ => rfl
  have husable : (({} : Device).reload env "05" (List.replicate 32 0)).held.Usable "05" :=
    usable_reload rfl hfetch (List.cons_ne_nil 0 _)
  obtain ⟨d₁, h₁, husable₁⟩ := exists_receives rfl hwelcoming (by decide) husable part
  obtain ⟨d₂, h₂, -⟩ := exists_receives rfl hwelcoming (by decide) husable₁ all
  obtain ⟨d₃, h₃, -⟩ := exists_receives rfl hwelcoming (by decide) husable all
  refine ⟨_, d₁, d₂, d₃, rfl, fun t r => ?_, h₁, h₂, h₃⟩
  exact has_reload_iff rfl hfetch rfl rfl

end Device

/-- A family of swarms of which all but one have just begun. -/
theorem Swarm.Reachable.update [DecidableEq ι] {s : Secret} {swarm : Swarm ι}
    (h : Reachable c topic s limit swarm) (t : Topic) :
    Reachable c t s limit (Function.update (fun t => Swarm.start t s limit) topic swarm t) := by
  by_cases ht : t = topic
  · subst ht
    rwa [Function.update_self]
  · rw [Function.update_of_ne ht]
    exact .start

/-- One device has published a generation of edits of its contacts, and another device two. -/
structure Swarm.TwoWriters (c : Cipher) (swarm : Topic → Swarm Bool) (p q q' : Post Bool) :
    Prop where
  reachable : ∀ t, Reachable c t default Replica.defaultLimit (swarm t)
  small : ∀ t i, ((swarm t).replica i).seq < 9223372036854775808
  mem : ∀ x ∈ [p, q, q'], x ∈ (swarm .contacts).posts
  seq : p.content.seq = 1 ∧ q.content.seq = 1 ∧ q'.content.seq = 2
  later : q'.content.entries.live = [("a", [2])]
  both : (p.content.entries.join q'.content.entries).live = [("a", [2]), ("b", [3])]

theorem Swarm.exists_two_writers (c : Cipher) (hc : c.Faithful) :
    ∃ swarm p q q', TwoWriters c swarm p q q' := by
  let nonce : Bytes := List.replicate Cipher.nonceLength 0
  have hnonce : nonce.length = Cipher.nonceLength := List.length_replicate
  let other : Replica := ((Replica.fresh .contacts default).change ⟨"b", some [3]⟩).2
  let first : Replica := ((Replica.fresh .contacts default).change ⟨"a", some [1]⟩).2
  let sent : Replica :=
    { first with phase := .sent, unsaved := true, inFlight := first.retired.keys }
  let second : Replica := (sent.change ⟨"a", some [2]⟩).2
  obtain ⟨s₁, h₁, hcopies₁, hposts₁⟩ := (Reachable.start (ι := Bool)).exists_publish (c := c)
    false ⟨"b", some [3]⟩ "other" (r := other) rfl rfl (Replica.payload_fits hc hnonce (by decide)) hnonce
    fun p hp => absurd hp List.not_mem_nil
  have hcopy₁ : s₁.replica true = .fresh .contacts default := by
    rw [hcopies₁, Function.update_of_ne (by decide)]
    rfl
  obtain ⟨s₂, h₂, hcopies₂, hposts₂⟩ := h₁.exists_publish true ⟨"a", some [1]⟩ "first"
    (r := first) (by rw [hcopy₁]) rfl (Replica.payload_fits hc hnonce (by decide)) hnonce
    (by rw [hposts₁]; simp [start])
  have hcopy₂ : s₂.replica true = sent := by rw [hcopies₂, Function.update_self]
  obtain ⟨s₃, h₃, hcopies₃, hposts₃⟩ := h₂.exists_publish true ⟨"a", some [2]⟩ "second"
    (r := second) (by rw [hcopy₂]) rfl (Replica.payload_fits hc hnonce (by decide)) hnonce
    (by rw [hposts₂, hposts₁]; simp [start])
  rw [hposts₂, hposts₁] at hposts₃
  rw [hcopies₂, hcopies₁] at hcopies₃
  refine ⟨_, ⟨false, "other", other.payload c nonce, other.generation⟩,
    ⟨true, "first", first.payload c nonce, first.generation⟩,
    ⟨true, "second", second.payload c nonce, second.generation⟩, h₃.update, fun t i => ?_, ?_,
    ⟨rfl, rfl, rfl⟩, ?_, ?_⟩
  · by_cases ht : t = .contacts
    · subst ht
      rw [Function.update_self, hcopies₃]
      cases i <;> decide
    · rw [Function.update_of_ne ht]
      exact (by decide : (0 : Int) < 9223372036854775808)
  · rw [Function.update_self, hposts₃]
    simp
  · show second.entries.live = _
    decide
  · show (other.entries.join second.entries).live = _
    decide

section

variable {swarm : Topic → Swarm Bool} {p q q' : Post Bool}

namespace Swarm.TwoWriters

theorem posted (h : TwoWriters c swarm p q q') (hc : c.Faithful) :
    Posted c .contacts default Replica.defaultLimit (swarm .contacts).posts :=
  ((h.reachable .contacts).sound hc (by decide) (h.small .contacts)).posted

theorem stored (h : TwoWriters c swarm p q q') {l : List (Post Bool)} (hl : l ⊆ [p, q, q']) :
    ∀ m ∈ l.map (Post.message .contacts), ∃ x ∈ (swarm m.topic).posts, m.Carries x := by
  intro m hm
  obtain ⟨x, hx, rfl⟩ := List.mem_map.1 hm
  exact ⟨x, h.mem x (hl hx), x.carries_message .contacts⟩

theorem carried (h : TwoWriters c swarm p q q') (hc : c.Faithful) {l : List (Post Bool)}
    (hl : l ⊆ [p, q, q']) (x : Post Bool) :
    Carried (swarm .contacts).posts .contacts (l.map (Post.message .contacts)) x ↔ x ∈ l :=
  carried_message (fun x y hx hy => (h.posted hc).unique x hx y hy) fun x hx => h.mem x (hl hx)

/-- The first generations of both are all there is to their messages. -/
theorem tops (h : TwoWriters c swarm p q q') (hc : c.Faithful) :
    Replica.Tops (Carried (swarm .contacts).posts .contacts ([p, q].map (Post.message .contacts)))
      p q := by
  have hcarried := h.carried hc (l := [p, q]) (by simp)
  obtain ⟨hp, hq, -⟩ := h.seq
  refine ⟨⟨(hcarried p).2 (by simp), (hcarried q).2 (by simp)⟩, hq.trans hp.symm,
    fun x hx _ => ?_, fun x hx hseq => absurd ?_ hseq⟩
  · rcases List.mem_pair.1 ((hcarried x).1 hx) with rfl | rfl
    · exact .inl rfl
    · exact .inr rfl
  · rcases List.mem_pair.1 ((hcarried x).1 hx) with rfl | rfl
    · rfl
    · exact hq.trans hp.symm

end Swarm.TwoWriters

namespace Device

/-- A device that has the second generation of one of them refuses the first of the other. -/
theorem lives_of_late (hc : c.Faithful) (hwriters : Swarm.TwoWriters c swarm p q q')
    (henv : env.engine = .plain c Replica.defaultLimit) {d d₁ d₂ d₃ : Device}
    (hfresh : d.held.Has account .contacts (.fresh .contacts default))
    (h₁ : Receives env account ([q'].map (Post.message .contacts)) d d₁)
    (h₂ : Receives env account ([p, q'].map (Post.message .contacts)) d₁ d₂)
    (h₃ : Receives env account ([p, q'].map (Post.message .contacts)) d d₃) :
    d₂.held.live? account .contacts = some [("a", [2])] ∧
      d₃.held.live? account .contacts = some [("a", [2]), ("b", [3])] := by
  obtain ⟨hp, -, hq'⟩ := hwriters.seq
  have hposted := hwriters.posted hc
  have hne : q'.hash ≠ p.hash := fun heq => by
    rw [hposted.unique q' (hwriters.mem q' (by simp)) p (hwriters.mem p (by simp)) heq] at hq'
    omega
  have hreads : ∀ r : Replica, r.fixed = (.contacts, default, Replica.defaultLimit) →
      ∀ x ∈ [p, q'], r.Reads c x := fun r hr x hx =>
    hposted.reads x (hwriters.mem x ((List.sublist_cons_self q [q']).cons_cons p |>.subset hx)) r hr
  have hsorted : [p, q'].Pairwise fun x y => x.content.seq ≤ y.content.seq := by
    simp [hp, hq']
  let fresh : Replica := .fresh .contacts default
  have hfirst : ∀ x : Post Bool, 0 ≤ x.content.seq →
      (fresh.take x.hash x.content).2.seq = x.content.seq ∧
        (fresh.take x.hash x.content).2.entries = x.content.entries := fun x hx =>
    Replica.take_of_not_beyond hx (Entries.empty_le _) fun hcur => nomatch hcur
  obtain ⟨r₁, hr₁, hfixed₁, htook₁⟩ := h₁.takeAll henv (List.pairwise_singleton _ q')
    (fun x hx => hreads _ rfl x (List.mem_cons_of_mem p hx)) hfresh
  obtain ⟨r₂, hr₂, -, htook₂⟩ := h₂.takeAll henv hsorted (hreads r₁ hfixed₁) hr₁
  obtain ⟨r₃, hr₃, -, htook₃⟩ := h₃.takeAll henv hsorted (hreads _ rfl) hfresh
  have hlate : r₂.entries = q'.content.entries := by
    obtain ⟨hseq, hentries⟩ := hfirst q' (by omega)
    have hseq₁ : r₁.seq = q'.content.seq := (congrArg Standing.seq htook₁).trans hseq
    have hentries₁ : r₁.entries = q'.content.entries :=
      (congrArg Standing.entries htook₁).trans hentries
    obtain ⟨-, hstale⟩ := Replica.take_of_older (r := r₁) (g := p.content) p.hash (by omega)
    have hsame := hstale.trans hentries₁
    refine (congrArg Standing.entries htook₂).trans (le_antisymm ?_ ?_)
    · exact Replica.take_entries_le q'.hash hsame.le le_rfl
    · exact hsame.ge.trans (Replica.take_grows _ q'.hash q'.content).entries
  have hall : r₃.entries = p.content.entries.join q'.content.entries := by
    obtain ⟨hseq, hentries⟩ := hfirst p (by omega)
    have hcur : (fresh.take p.hash p.content).2.current ≠ some q'.hash := fun hcur => by
      rcases Replica.take_current hcur with hold | hhash
      · cases hold
      · exact hne hhash
    have htake := (Replica.take_accepts_iff (g := q'.content) hcur).2 (by omega)
    refine (congrArg Standing.entries htook₃).trans ?_
    refine (Replica.take_entries (g := q'.content) hcur).trans ?_
    rw [htake, if_pos rfl, hentries]
  rw [Held.live?_eq_some.2 ⟨r₂, hr₂, rfl⟩, Held.live?_eq_some.2 ⟨r₃, hr₃, rfl⟩, Replica.live,
    Replica.live, hlate, hall, hwriters.later, hwriters.both]
  exact ⟨rfl, rfl⟩

/-- Two devices' first generations are joined, also if one of them comes twice. The first generation
of one is missed if the second of the other came before. -/
theorem redelivered_joined_or_missed :
    let env := Env.bare .xchacha20Poly1305 Replica.defaultLimit "05"
    ∃ (swarm : Topic → Swarm Bool) (p q q' : Post Bool),
      Swarm.TwoWriters .xchacha20Poly1305 swarm p q q' ∧
      (∃ d₁ d₂ d₃, Receives env "05" ([q].map (Post.message .contacts))
          (({} : Device).reload env "05" (List.replicate 32 0)) d₁ ∧
        Receives env "05" ([p, q].map (Post.message .contacts)) d₁ d₂ ∧
        Receives env "05" ([p, q].map (Post.message .contacts))
          (({} : Device).reload env "05" (List.replicate 32 0)) d₃ ∧
        d₂.held.live? "05" .contacts = d₃.held.live? "05" .contacts) ∧
      ∃ d₁ d₂ d₃, Receives env "05" ([q'].map (Post.message .contacts))
          (({} : Device).reload env "05" (List.replicate 32 0)) d₁ ∧
        Receives env "05" ([p, q'].map (Post.message .contacts)) d₁ d₂ ∧
        Receives env "05" ([p, q'].map (Post.message .contacts))
          (({} : Device).reload env "05" (List.replicate 32 0)) d₃ ∧
        ∃ x ∈ [p, q'], ∃ r, r.Misses x ∧
          (d₂.held.Has "05" .contacts r ∨ d₃.held.Has "05" .contacts r) := by
  intro env
  have hc := Cipher.faithful_xchacha20Poly1305
  obtain ⟨swarm, p, q, q', hwriters⟩ := Swarm.exists_two_writers .xchacha20Poly1305 hc
  refine ⟨swarm, p, q, q', hwriters, ?_, ?_⟩
  · obtain ⟨d, d₁, d₂, d₃, rfl, hfresh, h₁, h₂, h₃⟩ := exists_redelivery .xchacha20Poly1305
      ([q].map (Post.message .contacts)) ([p, q].map (Post.message .contacts))
    have hsame := redelivered hc (by decide) rfl hwriters.reachable hwriters.small
      (hwriters.stored (l := [p, q]) (by simp)) (by simp) rfl rfl rfl rfl rfl
      (fun t r hr x _ hcur => by cases (hfresh t r).1 hr; cases hcur) h₁ h₂ h₃ .contacts
    refine ⟨d₁, d₂, d₃, h₁, h₂, h₃, hsame.2 p q (hwriters.tops hc) fun r hr => ?_⟩
    obtain rfl := (hfresh .contacts r).1 hr
    exact ⟨by rw [hwriters.seq.1]; decide, Entries.empty_le _, Entries.empty_le _⟩
  · obtain ⟨d, d₁, d₂, d₃, rfl, hfresh, h₁, h₂, h₃⟩ := exists_redelivery .xchacha20Poly1305
      ([q'].map (Post.message .contacts)) ([p, q'].map (Post.message .contacts))
    have hsame := redelivered hc (by decide) rfl hwriters.reachable hwriters.small
      (hwriters.stored (l := [p, q']) (by simp)) (by simp) rfl rfl rfl rfl rfl
      (fun t r hr x _ hcur => by cases (hfresh t r).1 hr; cases hcur) h₁ h₂ h₃ .contacts
    refine ⟨d₁, d₂, d₃, h₁, h₂, h₃, ?_⟩
    obtain ⟨hlate, hall⟩ := lives_of_late hc hwriters rfl ((hfresh _ _).2 rfl) h₁ h₂ h₃
    rcases hsame.1 with heq | ⟨x, hx, r, hmisses, hhas⟩
    · rw [hlate, hall] at heq
      exact absurd heq (by decide)
    · exact ⟨x, (hwriters.carried hc (by simp) x).1 hx, r, hmisses, hhas⟩

/-- Messages of several devices may leave less if some of them come first. -/
theorem not_redelivered_concurrent :
    ¬ ∀ (swarm : Topic → Swarm Bool),
      (∀ t, Swarm.Reachable .xchacha20Poly1305 t default Replica.defaultLimit (swarm t)) →
      (∀ t i, ((swarm t).replica i).seq < 9223372036854775808) →
      ∀ part all : List Message, (∀ m ∈ all, ∃ x ∈ (swarm m.topic).posts, m.Carries x) →
        part.Sublist all →
      ∀ (env : Env) (d d₁ d₂ d₃ : Device),
        env.engine = .plain .xchacha20Poly1305 Replica.defaultLimit →
        ({} : Device).reload env "05" (List.replicate 32 0) = d →
        Receives env "05" part d d₁ → Receives env "05" all d₁ d₂ → Receives env "05" all d d₃ →
          ∀ t, d₂.held.live? "05" t = d₃.held.live? "05" t := by
  intro hclaim
  have hc := Cipher.faithful_xchacha20Poly1305
  obtain ⟨swarm, p, q, q', hwriters⟩ := Swarm.exists_two_writers .xchacha20Poly1305 hc
  obtain ⟨d, d₁, d₂, d₃, hload, hfresh, h₁, h₂, h₃⟩ := exists_redelivery .xchacha20Poly1305
    ([q'].map (Post.message .contacts)) ([p, q'].map (Post.message .contacts))
  have hsame := hclaim swarm hwriters.reachable hwriters.small _ _
    (hwriters.stored (l := [p, q']) (by simp)) (List.sublist_cons_self _ _) _ d d₁ d₂ d₃ rfl hload
    h₁ h₂ h₃ .contacts
  obtain ⟨hlate, hall⟩ := lives_of_late hc hwriters rfl ((hfresh _ _).2 rfl) h₁ h₂ h₃
  rw [hlate, hall] at hsame
  exact absurd hsame (by decide)

end Device

end

end AccountSync
