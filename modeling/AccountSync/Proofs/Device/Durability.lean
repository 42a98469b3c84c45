import AccountSync.Proofs.Device.Plans
import AccountSync.Proofs.Layout.RoundTrip
import AccountSync.Proofs.Replica.Saving
/-!
When a restart gives back what was in memory. Every use of a copy keeps its row in step with its
entries, unless the use loses something (`Held.recovers_use_iff`). So a device could be restarted at
any time of its life, without another entry in any copy, exactly as long as no edit was hidden from
its rows (`Device.always_durable_iff`).
-/

namespace AccountSync

variable {c : Cipher} {limit : Nat} {account : String} {secret : Bytes} {topic : Topic} {env : Env}

/-! ### What rows tell -/

/-- A copy that is started from the data of a row has these entries. -/
def Tells (c : Cipher) (limit : Nat) (secret : Bytes) (topic : Topic) (data : Option Bytes)
    (live : List (String × Bytes)) : Prop :=
  ∃ q, (Engine.plain c limit).start topic secret data = .ok q ∧ q.live = live

theorem tells_iff {data : Option Bytes} {live live' : List (String × Bytes)}
    (h : Tells c limit secret topic data live) :
    Tells c limit secret topic data live' ↔ live' = live := by
  obtain ⟨q, hstart, rfl⟩ := h
  constructor
  · rintro ⟨q', hstart', rfl⟩
    obtain rfl := Except.ok.inj (hstart.symm.trans hstart')
    rfl
  · rintro rfl
    exact ⟨q, hstart, rfl⟩

/-- A copy can be written down: its numbers have 64 bits, and its length has, too. -/
structure Replica.Fits (r : Replica) : Prop where
  words : r.toStanding.Words
  length : (Standing.layout.put r.toStanding).length < UInt64.size

instance (r : Replica) : Decidable r.Fits :=
  decidable_of_iff
    (r.toStanding.Words ∧ (Standing.layout.put r.toStanding).length < UInt64.size)
    ⟨fun h => ⟨h.1, h.2⟩, fun h => ⟨h.1, h.2⟩⟩

/-- A message is no longer than what is saved. -/
theorem Replica.Fits.generation_length {r : Replica} (h : r.Fits) :
    (Generation.layout.put r.generation).length < UInt64.size := by
  have hlen := h.length
  simp only [Standing.layout, Standing.phaseLayout, Generation.layout, Layout.Codec.via,
    Layout.Codec.pair, Layout.Codec.oneOf, List.length_append, Bytes.length_ofNat] at hlen ⊢
  exact lt_of_le_of_lt (by simp only [generation]; omega) hlen

theorem Replica.Fits.generation_words {r : Replica} (h : r.Fits) : r.generation.Words :=
  ⟨h.words.seq, h.words.entries⟩

/-- What was saved of a copy tells of its entries. -/
theorem Replica.Fits.tells {r : Replica} (h : r.Fits) {s : Secret}
    (hsecret : Secret.ofBytes secret = .ok s) :
    Tells c limit secret topic (some (Standing.layout.put r.toStanding)) r.live := by
  refine ⟨.restore topic s limit r.toStanding.resumed, ?_, rfl⟩
  simp only [Engine.plain, hsecret, bind, Except.bind,
    Replica.ofDump_of_read (Standing.read_put h.words h.length)]
  rfl

/-- What the row of a copy says of it. Without a row it is as good as fresh. -/
def Database.standing? (db : Database) (key : CopyKey) : Option Standing :=
  match db.data? key with
  | none => some {}
  | some data => (Standing.layout.read data).toOption

theorem Database.standing?_congr {db db' : Database} {key : CopyKey}
    (h : db'.data? key = db.data? key) : db'.standing? key = db.standing? key := by
  rw [standing?, h, standing?]

theorem Database.standing?_put {db : Database} {key : CopyKey} {s : Standing} (hwords : s.Words)
    (hlen : (Standing.layout.put s).length < UInt64.size)
    (h : db.data? key = some (Standing.layout.put s)) : db.standing? key = some s := by
  simp only [standing?, h, Standing.read_put hwords hlen]
  rfl

/-- The copy in a slot, if that can be used. -/
def Slot.copy? : Slot → Option Replica
  | ready r => some r
  | broken => none

theorem Slot.copy?_eq_some {slot : Slot} {r : Replica} : slot.copy? = some r ↔ slot = .ready r := by
  cases slot <;> simp [copy?]

/-- What is made of items with distinct keys has distinct keys, if it keeps them. -/
theorem nodup_map_filterMap {α β γ : Type} {f : α → Option β} {own : α → γ} {key : β → γ}
    {l : List α} (hown : ∀ a b, f a = some b → key b = own a) (hn : (l.map own).Nodup) :
    ((l.filterMap f).map key).Nodup := by
  rw [List.map_filterMap]
  refine List.Pairwise.filterMap _ (fun a a' hne b hb b' hb' heq => hne ?_) (List.pairwise_map.1 hn)
  obtain ⟨x, hx, rfl⟩ := Option.map_eq_some_iff.1 hb
  obtain ⟨x', hx', rfl⟩ := Option.map_eq_some_iff.1 hb'
  rw [← hown a x hx, ← hown a' x' hx', heq]

/-- All copies can be written down. -/
def Copies.Fit (cs : Copies) : Prop := ∀ key r, cs.find? key = some (.ready r) → r.Fits

instance (cs : Copies) : Decidable cs.Fit :=
  decidable_of_iff (∀ p ∈ cs.toList, ∀ r ∈ p.2.copy?, r.Fits)
    ⟨fun h key r hr => h (key, .ready r) (SortedMap.mem_toList.2 hr) r rfl, fun h p hp r hr =>
      h p.1 r (SortedMap.mem_toList.1 (Slot.copy?_eq_some.1 hr ▸ hp))⟩

/-! ### What is held -/

namespace Held

variable {h h' : Held} {r : Replica}

/-- The copy of a topic, if that is in memory. -/
def copy? (h : Held) (account : String) (topic : Topic) : Option Replica :=
  match h.copies.find? ⟨account, topic⟩ with
  | some (.ready r) => some r
  | some .broken | none => none

/-- The entries of a topic, if its copy is in memory. -/
def live? (h : Held) (account : String) (topic : Topic) : Option (List (String × Bytes)) :=
  (h.copy? account topic).map Replica.live

def Has (h : Held) (account : String) (topic : Topic) (r : Replica) : Prop :=
  h.copies.find? ⟨account, topic⟩ = some (.ready r)

theorem Has.unique {q : Replica} (hr : h.Has account topic r) (hq : h.Has account topic q) :
    r = q :=
  Slot.ready_unique hr hq

theorem copy?_eq_some : h.copy? account topic = some r ↔ h.Has account topic r := by
  unfold copy? Has
  cases hslot : h.copies.find? ⟨account, topic⟩ with
  | none => simp
  | some slot => cases slot <;> simp

theorem live?_eq_some {live : List (String × Bytes)} :
    h.live? account topic = some live ↔ ∃ r, h.Has account topic r ∧ r.live = live := by
  simp only [live?, Option.map_eq_some_iff, copy?_eq_some]

/-- If any copy is in memory, the account can be loaded. -/
def Loadable (account : String) (secret : Bytes) (h : Held) : Prop :=
  ∀ topic r, h.Has account topic r →
    h.database.Fetches account ∧ secret ≠ [] ∧ ∃ s, Secret.ofBytes secret = .ok s

/-- The rows tell of the entries of all copies in memory. -/
def Recovers (c : Cipher) (limit : Nat) (account : String) (secret : Bytes) (h : Held) : Prop :=
  ∀ topic r, h.Has account topic r →
    Tells c limit secret topic (h.database.data? ⟨account, topic⟩) r.live

/-- The copies of an account can be written down. -/
def Fits (account : String) (h : Held) : Prop := ∀ topic r, h.Has account topic r → r.Fits

instance (account : String) (h : Held) : Decidable (h.Fits account) :=
  decidable_of_iff (∀ topic ∈ Topic.all, ∀ r ∈ h.copy? account topic, r.Fits)
    ⟨fun hall topic r hr => hall topic (Topic.mem_all topic) r (copy?_eq_some.2 hr),
      fun hfits topic _ r hr => hfits topic r (copy?_eq_some.1 hr)⟩

/-- What a use with a plan leaves: where there is no copy, everything; else the copy and the data of
its row as the plan says, and everything else. -/
theorem use_eq_some {plan : Plan} (huse : h.use ⟨account, topic⟩ plan = some h') :
    (h' = h ∧ ∀ r, ¬ h.Has account topic r) ∨
      ∃ r r' k, h.Has account topic r ∧ plan r = some (r', k) ∧
        h'.copies = h.copies.insert ⟨account, topic⟩ (.ready (k.copy r')) ∧
        k.rows h.database ⟨account, topic⟩ r' = some h'.database := by
  unfold use at huse
  split at huse
  · rename_i hnone
    obtain rfl := Option.some.inj huse
    exact .inl ⟨rfl, fun r hr => by cases hnone.symm.trans hr⟩
  · cases huse
  · rename_i r hr
    right
    cases hplan : plan r with
    | none =>
      rw [Plan.on_none h hplan] at huse
      cases huse
    | some p =>
      obtain ⟨r', k⟩ := p
      rw [Plan.on_some h hplan] at huse
      cases hrows : k.rows h.database ⟨account, topic⟩ r' with
      | none =>
        rw [hrows] at huse
        cases huse
      | some db =>
        rw [hrows] at huse
        obtain rfl := Option.some.inj huse
        exact ⟨r, r', k, hr, hplan, rfl, hrows⟩

/-- A use of one copy leaves the others, and their rows, as they are. -/
theorem use_frame {plan : Plan} {key : CopyKey} (huse : h.use ⟨account, topic⟩ plan = some h')
    (hkey : key ≠ ⟨account, topic⟩) :
    h'.copies.find? key = h.copies.find? key ∧ h'.database.data? key = h.database.data? key := by
  rcases use_eq_some huse with ⟨rfl, -⟩ | ⟨r, r', k, -, -, hcopies, hrows⟩
  · exact ⟨rfl, rfl⟩
  · refine ⟨?_, ?_⟩
    · rw [hcopies, SortedMap.find?_insert_of_ne hkey]
    · rw [(Keeping.rows_eq_some hrows).2, if_neg hkey]

/-- Uses of other copies leave a copy, and its row, as they are. -/
theorem useAll_frame {key : CopyKey} : ∀ {uses : List (Topic × Plan)} {h : Held},
    h.useAll account uses = some h' → (key.account = account → key.topic ∉ uses.map Prod.fst) →
      h'.copies.find? key = h.copies.find? key ∧ h'.database.data? key = h.database.data? key
  | [], h, huse, _ => by
    obtain rfl := Option.some.inj huse
    exact ⟨rfl, rfl⟩
  | (topic, plan) :: uses, h, huse, hkey => by
    rw [useAll, List.foldlM_cons, Option.bind_eq_bind, Option.bind_eq_some_iff] at huse
    obtain ⟨h₁, hone, hrest⟩ := huse
    have hne : key ≠ ⟨account, topic⟩ := by
      rintro rfl
      exact hkey rfl List.mem_cons_self
    obtain ⟨hcopy, hdata⟩ := useAll_frame hrest fun ha => mt (List.mem_cons_of_mem _) (hkey ha)
    obtain ⟨hcopy₁, hdata₁⟩ := use_frame hone hne
    exact ⟨hcopy.trans hcopy₁, hdata.trans hdata₁⟩

/-- Among uses of distinct copies, one finds its copy as that was before all of them, and it stays
as the use leaves it. -/
theorem use_of_useAll {topic : Topic} {plan : Plan} : ∀ {uses : List (Topic × Plan)} {h : Held},
    h.useAll account uses = some h' → (uses.map Prod.fst).Nodup → (topic, plan) ∈ uses →
      ∃ h₁ h₂ : Held, h₁.use ⟨account, topic⟩ plan = some h₂ ∧
        h₁.copies.find? ⟨account, topic⟩ = h.copies.find? ⟨account, topic⟩ ∧
        h'.copies.find? ⟨account, topic⟩ = h₂.copies.find? ⟨account, topic⟩ ∧
        h'.database.data? ⟨account, topic⟩ = h₂.database.data? ⟨account, topic⟩
  | [], _, _, _, hmem => by cases hmem
  | (topic₁, plan₁) :: uses, h, huse, hn, hmem => by
    rw [useAll, List.foldlM_cons, Option.bind_eq_bind, Option.bind_eq_some_iff] at huse
    obtain ⟨h₁, hone, hrest⟩ := huse
    have hrest : h₁.useAll account uses = some h' := hrest
    obtain ⟨hnot, hn⟩ := List.nodup_cons.1 hn
    rcases List.mem_cons.1 hmem with heq | hmem
    · obtain ⟨rfl, rfl⟩ := Prod.ext_iff.1 heq
      have hkey : (⟨account, topic⟩ : CopyKey).account = account → topic ∉ uses.map Prod.fst :=
        fun _ => hnot
      obtain ⟨hcopy, hdata⟩ := useAll_frame hrest hkey
      exact ⟨h, h₁, hone, rfl, hcopy, hdata⟩
    · have hne : (⟨account, topic⟩ : CopyKey) ≠ ⟨account, topic₁⟩ := by
        intro heq
        exact hnot (List.mem_map.2 ⟨_, hmem, (CopyKey.mk.inj heq).2⟩)
      obtain ⟨h₂, h₃, huse, hbefore, hafter⟩ := use_of_useAll hrest hn hmem
      exact ⟨h₂, h₃, huse, hbefore.trans (use_frame hone hne).1, hafter⟩

theorem Loadable.use {plan : Plan} (hload : h.Loadable account secret)
    (huse : h.use ⟨account, topic⟩ plan = some h') : h'.Loadable account secret := by
  rcases use_eq_some huse with ⟨rfl, -⟩ | ⟨r, r', k, hr, -, -, hrows⟩
  · exact hload
  · intro _ _ _
    obtain ⟨hfetch, hsecret⟩ := hload topic r hr
    exact ⟨(Keeping.rows_eq_some hrows).1 hfetch, hsecret⟩

/-- If one copy is replaced, and no other copy's row, only the row of that copy is in question. -/
theorem recovers_iff_own {q : Replica} (hrec : h.Recovers c limit account secret)
    (hcopies : h'.copies = h.copies.insert ⟨account, topic⟩ (.ready q))
    (hrows : ∀ key, key ≠ ⟨account, topic⟩ → h'.database.data? key = h.database.data? key) :
    h'.Recovers c limit account secret ↔
      Tells c limit secret topic (h'.database.data? ⟨account, topic⟩) q.live := by
  have hown : h'.Has account topic q := by
    rw [Has, hcopies, SortedMap.find?_insert_self]
  constructor
  · exact fun hrec' => hrec' topic q hown
  · intro htells t r hr
    by_cases ht : t = topic
    · subst ht
      obtain rfl := hown.unique hr
      exact htells
    · have hkey : (⟨account, t⟩ : CopyKey) ≠ ⟨account, topic⟩ := by
        intro heq
        exact ht (CopyKey.mk.inj heq).2
      rw [Has, hcopies, SortedMap.find?_insert_of_ne hkey] at hr
      rw [hrows _ hkey]
      exact hrec t r hr

/-- After a use the rows still tell of all copies, unless the use loses something. -/
theorem recovers_use_iff {plan : Plan} (hload : h.Loadable account secret)
    (hrec : h.Recovers c limit account secret) (huse : h.use ⟨account, topic⟩ plan = some h')
    (hfits : h'.Fits account) :
    h'.Recovers c limit account secret ↔ ∀ r, h.Has account topic r → ¬ plan.Loses r := by
  rcases use_eq_some huse with ⟨rfl, hnone⟩ | ⟨r, r', k, hr, hplan, hcopies, hrows⟩
  · exact ⟨fun _ r hr => absurd hr (hnone r), fun _ => hrec⟩
  obtain ⟨-, -, s, hs⟩ := hload topic r hr
  have hdata := (Keeping.rows_eq_some hrows).2
  have hothers : ∀ key, key ≠ ⟨account, topic⟩ →
      h'.database.data? key = h.database.data? key := fun _ hkey => (use_frame huse hkey).2
  have hone : (∀ q, h.Has account topic q → ¬ plan.Loses q) ↔ ¬ plan.Loses r := by
    constructor
    · exact fun hall => hall r hr
    · intro hnot q hq
      rwa [← hr.unique hq]
  rw [recovers_iff_own hrec hcopies hothers, hone, Plan.loses_iff hplan, Keeping.copy_live, hdata,
    if_pos rfl]
  -- a row that is written tells of the copy; another tells of the entries of before
  cases k with
  | save time =>
    have hown : h'.Has account topic (Keeping.copy r' (.save time)) := by
      rw [Has, hcopies, SortedMap.find?_insert_self]
    exact iff_of_true ((hfits topic _ hown).tells hs) fun hloss => hloss.1
  | refresh | leave =>
    rw [Keeping.data, tells_iff (hrec topic r hr)]
    simp [Keeping.Idle]

/-- What is in memory after a load was started from its row. -/
theorem start_of_loaded {db : Database} {r : Replica}
    (hr : Has ⟨db.loadCopies (.plain c limit) account secret, db⟩ account topic r) :
    secret ≠ [] ∧ db.Fetches account ∧
      (Engine.plain c limit).start topic secret (db.data? ⟨account, topic⟩) = .ok r := by
  obtain ⟨hsecret, hfetch⟩ : secret ≠ [] ∧ db.Fetches account := by
    unfold Has Database.loadCopies at hr
    split at hr
    · cases hr
    · split at hr
      · rename_i hsecret _ dumps hdumps
        exact ⟨hsecret, (Database.fetchAll_ok hdumps).1⟩
      · cases hr
  refine ⟨hsecret, hfetch, ?_⟩
  rw [Has, Database.find?_loadCopies db (.plain c limit) account topic hfetch hsecret] at hr
  unfold Database.data?
  cases hstart : (Engine.plain c limit).start topic secret
      ((db.row? ⟨account, topic⟩).map RowData.data) with
  | error t =>
    rw [hstart] at hr
    cases hr
  | ok q =>
    rw [hstart] at hr
    cases hr
    rfl

theorem loadable_loaded (db : Database) :
    Loadable account secret ⟨db.loadCopies (.plain c limit) account secret, db⟩ := by
  intro topic r hr
  obtain ⟨hsecret, hfetch, hstart⟩ := start_of_loaded hr
  refine ⟨hfetch, hsecret, ?_⟩
  cases hs : Secret.ofBytes secret with
  | ok s => exact ⟨s, rfl⟩
  | error f =>
    simp only [Engine.plain, hs] at hstart
    cases hstart

theorem recovers_loaded (db : Database) :
    Recovers c limit account secret ⟨db.loadCopies (.plain c limit) account secret, db⟩ :=
  fun _ r hr => ⟨r, (start_of_loaded hr).2.2, rfl⟩

/-- If the account can be loaded, the rows tell of a copy what the next start finds of it. -/
theorem tells_iff_loaded {live : List (String × Bytes)} (hload : h.Loadable account secret)
    (hr : h.Has account topic r) :
    Tells c limit secret topic (h.database.data? ⟨account, topic⟩) live ↔
      live? ⟨h.database.loadCopies (.plain c limit) account secret, h.database⟩ account topic =
        some live := by
  obtain ⟨hfetch, hsecret, -⟩ := hload topic r hr
  simp only [live?_eq_some, Has, Database.find?_loadCopies _ _ _ _ hfetch hsecret, Tells,
    Database.data?]
  refine exists_congr fun q => and_congr_left fun _ => ?_
  cases (Engine.plain c limit).start topic secret
      ((h.database.row? ⟨account, topic⟩).map RowData.data) <;> simp [Except.toOption]

end Held

/-! ### Losses in a life -/

/-- A deed changes entries of a saved copy within an open generation of edits. -/
def Deed.Hides (account : String) (env : Env) (h : Held) : Deed → Prop
  | edit topic changes => ∃ r ∈ h.copy? account topic, r.Hidden (r.changeAll changes).2
  | follow writes => ∃ write ∈ writes, ∃ target ∈ write.target? account,
      ∃ r ∈ h.copy? account target.1, ((env.handler target.1).applyLocal target.2 r).1.isOk ∧
        r.Hidden ((env.handler target.1).applyLocal target.2 r).2
  | receive _ => False

instance (account : String) (env : Env) (h : Held) : DecidablePred (Deed.Hides account env h)
  | .edit topic changes =>
    inferInstanceAs (Decidable (∃ r ∈ h.copy? account topic, r.Hidden (r.changeAll changes).2))
  | .follow writes =>
    inferInstanceAs (Decidable (∃ write ∈ writes, ∃ target ∈ LocalWrite.target? account write,
      ∃ r ∈ h.copy? account target.1, ((env.handler target.1).applyLocal target.2 r).1.isOk ∧
        r.Hidden ((env.handler target.1).applyLocal target.2 r).2))
  | .receive _ => inferInstanceAs (Decidable False)

namespace Deed

variable {h h' : Held} {deed part : Deed}

/-- A deed hides what its uses lose. -/
theorem hides_iff (henv : env.Plain c limit account) (deed : Deed) (h : Held) :
    deed.Hides account env h ↔
      ∃ u ∈ deed.uses c account env, ∃ r, h.Has account u.1 r ∧ u.2.Loses r := by
  cases deed with
  | edit topic changes =>
    simp only [Hides, uses, List.mem_singleton, exists_eq_left, Option.mem_def,
      Held.copy?_eq_some, Plan.edit_loses_iff]
  | follow writes =>
    simp only [Hides, uses, List.mem_map, List.mem_filterMap, Option.mem_def, Held.copy?_eq_some]
    constructor
    · rintro ⟨write, hwrite, target, htarget, r, hr, hhidden⟩
      exact ⟨_, ⟨target, ⟨write, hwrite, htarget⟩, rfl⟩, r, hr,
        (Plan.follow_loses_iff (henv.honest target.1)).2 hhidden⟩
    · rintro ⟨u, ⟨target, ⟨write, hwrite, htarget⟩, rfl⟩, r, hr, hloses⟩
      exact ⟨write, hwrite, target, htarget, r, hr,
        (Plan.follow_loses_iff (henv.honest target.1)).1 hloses⟩
  | receive messages =>
    simp only [Hides, uses, List.mem_map, false_iff]
    rintro ⟨u, ⟨share, -, rfl⟩, r, -, hloses⟩
    exact Plan.not_share_loses c env _ _ r hloses

/-- After a part of a deed the rows still tell of all copies, unless the part hides a change. -/
theorem recovers_part_iff (hpart : part ∈ deed.parts) (henv : env.Plain c limit account)
    (hload : h.Loadable account secret) (hrec : h.Recovers c limit account secret)
    (heffect : part.effect c account env h = some h') (hfits : h'.Fits account) :
    h'.Loadable account secret ∧
      (h'.Recovers c limit account secret ↔ ¬ part.Hides account env h) := by
  rw [hides_iff henv]
  rw [effect] at heffect
  split at heffect
  · cases heffect
  rcases uses_part hpart c account env with huses | ⟨⟨topic, plan⟩, huses⟩
  · rw [huses] at heffect ⊢
    obtain rfl := Option.some.inj heffect
    exact ⟨hload, by simpa using hrec⟩
  · rw [huses] at heffect ⊢
    have huse : h.use ⟨account, topic⟩ plan = some h' :=
      (bind_pure (h.use _ plan)).symm.trans heffect
    refine ⟨hload.use huse, ?_⟩
    rw [Held.recovers_use_iff hload hrec huse hfits]
    simp

end Deed

/-! ### Restarts in a life -/

namespace Device

variable {d : Device}

/-- If the program is started anew, each topic in memory has the entries that it has now. -/
def Durable (c : Cipher) (limit : Nat) (account : String) (secret : Bytes) (d : Device) : Prop :=
  ∀ env : Env, env.engine = .plain c limit → ∀ topic live, d.held.live? account topic = some live →
    (d.reload env account secret).held.live? account topic = some live

def Fits (account : String) (d : Device) : Prop := d.held.Fits account

instance (account : String) : DecidablePred (Fits account) := fun d =>
  inferInstanceAs (Decidable (d.held.Fits account))

theorem Durable.congr {d' : Device} (h : d.held = d'.held)
    (hd : d.Durable c limit account secret) : d'.Durable c limit account secret := by
  intro env henv topic live hlive
  have hdatabase : d'.database = d.database := congrArg Held.database h.symm
  rw [held_reload, hdatabase, ← held_reload]
  exact hd env henv topic live (h ▸ hlive)

theorem durable_iff (hload : d.held.Loadable account secret) :
    d.Durable c limit account secret ↔ d.held.Recovers c limit account secret := by
  constructor
  · intro hd topic r hr
    refine (Held.tells_iff_loaded hload hr).2 ?_
    have h := hd { engine := .plain c limit, identity := none, now := 0 } rfl topic r.live
      (Held.live?_eq_some.2 ⟨r, hr, rfl⟩)
    rwa [held_reload] at h
  · intro hrec env henv topic live hlive
    obtain ⟨r, hr, rfl⟩ := Held.live?_eq_some.1 hlive
    rw [held_reload, henv]
    exact (Held.tells_iff_loaded hload hr).1 (hrec topic r hr)

namespace Event

variable {e : Event} {h h' : Held}

/-- The event is a write that hides a change. -/
def Hides (account : String) (h : Held) : Event → Prop
  | restart _ => False
  | commit deeds => ∃ p ∈ deeds, p.2.Hides account p.1 h

instance (account : String) (h : Held) : DecidablePred (Hides account h)
  | restart _ => inferInstanceAs (Decidable False)
  | commit deeds => inferInstanceAs (Decidable (∃ p ∈ deeds, p.2.Hides account p.1 h))

/-- A restart, or a write of a part of a deed. -/
def Single : Event → Prop
  | restart _ => True
  | commit deeds => ∃ env, ∃ deed : Deed, ∃ part ∈ deed.parts, deeds = [(env, part)]

theorem single_part {part : Event} (hpart : part ∈ e.parts) : part.Single := by
  cases e with
  | restart env =>
    obtain rfl := List.mem_singleton.1 hpart
    trivial
  | commit deeds =>
    obtain ⟨⟨env, deed⟩, -, hpart⟩ := List.mem_flatMap.1 hpart
    obtain ⟨part, hmem, rfl⟩ := List.mem_map.1 hpart
    exact ⟨env, deed, part, hmem, rfl⟩

theorem recovers_iff (he : e.Plain c limit account) (hsingle : e.Single)
    (hload : h.Loadable account secret) (hrec : h.Recovers c limit account secret)
    (heffect : e.effect c limit account secret h = some h') (hfits : h'.Fits account) :
    h'.Loadable account secret ∧
      (h'.Recovers c limit account secret ↔ ¬ e.Hides account h) := by
  cases e with
  | restart env =>
    obtain rfl := Option.some.inj heffect
    exact ⟨Held.loadable_loaded h.database, iff_of_true (Held.recovers_loaded h.database) id⟩
  | commit deeds =>
    obtain ⟨env, deed, part, hpart, rfl⟩ := hsingle
    have hpartial : part.effect c account env h = some h' :=
      (bind_pure (part.effect c account env h)).symm.trans heffect
    have hiff := Deed.recovers_part_iff hpart (he _ List.mem_cons_self) hload hrec hpartial hfits
    simpa only [Hides, List.mem_singleton, exists_eq_left] using hiff

end Event

theorem Always.head {P : Device → Prop} : ∀ {es : List Event},
    Always account secret P d es → P d
  | [], h => h
  | _ :: _, h => h.1

theorem Always.last {P : Device → Prop} : ∀ {es : List Event} {d : Device},
    Always account secret P d es → P (d.live account secret es)
  | [], _, h => h
  | _ :: _, _, h => by
    have hrest := Always.last h.2
    exact hrest

/-- A life of single deeds that begins with rows that tell of all copies. -/
theorem always_durable_iff : ∀ {es : List Event} {d : Device},
    (∀ e ∈ es, e.Plain c limit account) → (∀ e ∈ es, e.Single) →
    Each account secret (fun d e => e.Commits account d) d es →
    Always account secret (Fits account) d es →
    d.held.Loadable account secret → d.held.Recovers c limit account secret →
      (Always account secret (Durable c limit account secret) d es ↔
        Each account secret (fun d e => ¬ e.Hides account d.held) d es)
  | [], d, _, _, _, _, hload, hrec => iff_of_true ((durable_iff hload).2 hrec) trivial
  | e :: es, d, hplain, hsingle, hcommits, hfits, hload, hrec => by
    obtain ⟨hp, hplain⟩ := List.forall_mem_cons.1 hplain
    obtain ⟨hs, hsingle⟩ := List.forall_mem_cons.1 hsingle
    obtain ⟨hcommit, hcommits⟩ := hcommits
    obtain ⟨hload', hstep⟩ := Event.recovers_iff hp hs hload hrec
      ((effect_iff hp).1 ⟨hcommit, rfl⟩) hfits.2.head
    have hd := (durable_iff hload).2 hrec
    constructor
    · rintro ⟨-, halways⟩
      have hrec' := (durable_iff hload').1 halways.head
      exact ⟨hstep.1 hrec',
        (always_durable_iff hplain hsingle hcommits hfits.2 hload' hrec').1 halways⟩
    · rintro ⟨hshown, heach⟩
      have hrec' := hstep.2 hshown
      exact ⟨hd, (always_durable_iff hplain hsingle hcommits hfits.2 hload' hrec').2 heach⟩

/-- A life of commits and restarts leaves what its single deeds leave, each committed on its own. At
every time of these a restart leaves the entries of all copies as they are, exactly as long as no
deed hides a change: one to a saved copy, within an open generation of edits. So if none does, a
restart at the end of the life loses nothing. -/
theorem durable_throughout_iff (d : Device) (hd : d.copies = ∅) {es : List Event}
    (hplain : ∀ e ∈ es, e.Plain c limit account)
    (hcommits : Each account secret (fun d e => e.Commits account d) d es)
    (hfits : Always account secret (Fits account) d (es.flatMap Event.parts)) :
    (d.live account secret (es.flatMap Event.parts)).held = (d.live account secret es).held ∧
      (Always account secret (Durable c limit account secret) d (es.flatMap Event.parts) ↔
        Each account secret (fun d e => ¬ e.Hides account d.held) d (es.flatMap Event.parts)) ∧
      (Each account secret (fun d e => ¬ e.Hides account d.held) d (es.flatMap Event.parts) →
        (d.live account secret es).Durable c limit account secret) := by
  obtain ⟨hparts, hheld⟩ := held_live_parts hplain hcommits
  have hnone : ∀ topic r, ¬ d.held.Has account topic r := by
    intro topic r hr
    rw [Held.Has, held, hd] at hr
    cases hr
  have hiff : Always account secret (Durable c limit account secret) d (es.flatMap Event.parts) ↔
      Each account secret (fun d e => ¬ e.Hides account d.held) d (es.flatMap Event.parts) := by
    refine always_durable_iff (fun part hpart => ?_) (fun part hpart => ?_) hparts hfits
      (fun topic r hr => absurd hr (hnone topic r)) fun topic r hr => absurd hr (hnone topic r)
    · obtain ⟨e, he, hpart⟩ := List.mem_flatMap.1 hpart
      exact Event.plain_part (hplain e he) hpart
    · obtain ⟨e, -, hpart⟩ := List.mem_flatMap.1 hpart
      exact Event.single_part hpart
  exact ⟨hheld, hiff, fun hshown => (hiff.2 hshown).last.congr hheld⟩

/-- The program is started twice, and each time it edits topics that were not edited before. -/
theorem durable_throughout_two_starts :
    let c := Cipher.xchacha20Poly1305
    let env := Env.bare c Replica.defaultLimit "05"
    let secret : Bytes := List.replicate 32 0
    let es : List Event := [.restart env,
      .commit [(env, .edit .contacts [⟨"a", some [1]⟩, ⟨"b", some [2]⟩]),
        (env, .follow [.cell .profile "name" "05" (some [3])])],
      .restart env,
      .commit [(env, .receive [⟨.contacts, 1, [], none, some "h"⟩]),
        (env, .edit .userGroups [⟨"g", some [4]⟩])]]
    (∀ e ∈ es, e.Plain c Replica.defaultLimit "05") ∧
      Each "05" secret (fun d e => e.Commits "05" d) {} es ∧
      Always "05" secret (Fits "05") {} (es.flatMap Event.parts) ∧
      Each "05" secret (fun d e => ¬ e.Hides "05" d.held) {} (es.flatMap Event.parts) ∧
      (live "05" secret {} es).Durable c Replica.defaultLimit "05" secret := by
  intro c env secret es
  have henv : env.Plain c Replica.defaultLimit "05" := Env.plain_bare c Replica.defaultLimit "05"
  have hplain : ∀ e ∈ es, e.Plain c Replica.defaultLimit "05" := by
    simp only [es, List.forall_mem_cons, Event.Plain]
    exact ⟨henv, by simp [henv], henv, by simp [henv], by simp⟩
  have hcommits : Each "05" secret (fun d e => e.Commits "05" d) {} es := by decide +kernel
  have hfits : Always "05" secret (Fits "05") {} (es.flatMap Event.parts) := by decide +kernel
  have hshown : Each "05" secret (fun d e => ¬ e.Hides "05" d.held) {}
      (es.flatMap Event.parts) := by decide +kernel
  exact ⟨hplain, hcommits, hfits, hshown,
    (durable_throughout_iff {} rfl hplain hcommits hfits).2.2 hshown⟩

/-- Of two edits of one topic with a start between them, the second is lost: it is made within the
generation that the first has opened, and is not saved. -/
theorem not_durable_second_edit :
    let c := Cipher.xchacha20Poly1305
    let env := Env.bare c Replica.defaultLimit "05"
    let secret : Bytes := List.replicate 32 0
    let es : List Event := [.restart env, .commit [(env, .edit .contacts [⟨"a", some [1]⟩])],
      .restart env, .commit [(env, .edit .contacts [⟨"b", some [2]⟩])]]
    Each "05" secret (fun d e => e.Commits "05" d) {} es ∧
      ¬ (live "05" secret {} es).Durable c Replica.defaultLimit "05" secret := by
  intro c env secret es
  refine ⟨by decide +kernel, fun hdurable => ?_⟩
  have hlive := hdurable env rfl .contacts [("a", [1]), ("b", [2])] (by decide +kernel)
  revert hlive
  decide +kernel

end Device

end AccountSync
