import Mathlib.Logic.Function.Basic
import AccountSync.Proofs.Device.Durability
/-!
Edits that are committed while something else is under way. What a copy says of its keys afterwards
is what it said before with the changes on top, whether or not it was saved between them
(`Replica.Overlaid`). An edit touches one copy and its row, and no row is ever lost (`Held.Grows`).
-/

namespace AccountSync

variable {c : Cipher} {limit : Nat}

/-! ### Changes -/

namespace Change

/-- What is under the keys after changes. -/
def overlay (get : String → Option Bytes) (changes : List Change) : String → Option Bytes :=
  changes.foldl (fun get change => Function.update get change.key change.value) get

/-- One of the changes gives a key another value than it has by then. -/
def Matter (get : String → Option Bytes) : List Change → Prop
  | [] => False
  | change :: rest => get change.key ≠ change.value ∨
    Matter (Function.update get change.key change.value) rest

variable {get : String → Option Bytes}

theorem overlay_append (get : String → Option Bytes) (changes others : List Change) :
    overlay get (changes ++ others) = overlay (overlay get changes) others :=
  List.foldl_append

theorem matter_append : ∀ {changes others : List Change} {get : String → Option Bytes},
    Matter get (changes ++ others) ↔ Matter get changes ∨ Matter (overlay get changes) others
  | [], _, _ => (false_or _).to_iff.symm
  | _ :: _, _, _ => (or_congr_right matter_append).trans or_assoc.symm

theorem overlay_of_not_matter : ∀ {changes : List Change} {get : String → Option Bytes},
    ¬ Matter get changes → overlay get changes = get
  | [], _, _ => rfl
  | change :: changes, get, h => by
    obtain ⟨hvalue, hrest⟩ := not_or.1 h
    have hsame : Function.update get change.key change.value = get := by
      rw [← not_not.1 hvalue, Function.update_eq_self]
    rw [hsame] at hrest
    rw [overlay, List.foldl_cons, hsame]
    exact overlay_of_not_matter hrest

end Change

namespace Replica

variable {r r' r'' : Replica} {changes others : List Change}

theorem get_write_eq (r : Replica) (key : String) (value : Option Bytes) :
    (r.write key value).get = Function.update r.get key value := by
  have hinsert : ∀ stamp, Entries.value? (r.entries.insert key ⟨value, stamp⟩) =
      Function.update r.get key value := by
    intro stamp
    funext key'
    by_cases hkey : key' = key
    · subst hkey
      simp [Entries.value?]
    · simp [Entries.value?, get, SortedMap.find?_insert_of_ne hkey, hkey]
  have hw := write_wrote r key value
  generalize r.write key value = q at hw ⊢
  cases hw with
  | within => exact hinsert r.seq
  | opening _ _ _ _ _ hentries => exact (congrArg Entries.value? hentries).trans (hinsert _)

/-- How changes show in a copy: on top of what it said before. Changes that matter leave it in a
generation of edits, and others leave what would be saved of it as it was. -/
structure Overlaid (r : Replica) (changes : List Change) (r' : Replica) : Prop where
  fixed : r'.fixed = r.fixed
  get : r'.get = Change.overlay r.get changes
  same : ¬ Change.Matter r.get changes → r'.toStanding = r.toStanding
  edited : Change.Matter r.get changes → r'.phase = .edited

theorem Overlaid.refl (r : Replica) : r.Overlaid [] r := ⟨rfl, rfl, fun _ => rfl, False.elim⟩

theorem Overlaid.trans (h : r.Overlaid changes r') (h' : r'.Overlaid others r'') :
    r.Overlaid (changes ++ others) r'' where
  fixed := h'.fixed.trans h.fixed
  get := by rw [h'.get, h.get, Change.overlay_append]
  same hnot := by
    obtain ⟨hfirst, hsecond⟩ := not_or.1 (mt Change.matter_append.2 hnot)
    rw [← h.get] at hsecond
    exact (h'.same hsecond).trans (h.same hfirst)
  edited hmatter := by
    -- If the later changes do not matter, they leave the phase in which the earlier ones ended.
    by_cases hsecond : Change.Matter r'.get others
    · exact h'.edited hsecond
    · rw [h.get] at hsecond
      have hfirst := (Change.matter_append.1 hmatter).resolve_right hsecond
      rw [← h.get] at hsecond
      exact (congrArg Standing.phase (h'.same hsecond)).trans (h.edited hfirst)

/-- To save a copy does not show in it. -/
theorem Overlaid.keep (h : r.Overlaid changes r') (k : Keeping) :
    r.Overlaid changes (k.copy r') := by
  have hstanding := k.copy_toStanding r'
  have hentries : (k.copy r').entries = r'.entries := congrArg Standing.entries hstanding
  refine ⟨(k.copy_fixed r').trans h.fixed, ?_, fun hnot => hstanding.trans (h.same hnot),
    fun hmatter => ?_⟩
  · rw [← h.get]
    exact congrArg Entries.value? hentries
  · exact (congrArg Standing.phase hstanding).trans (h.edited hmatter)

theorem overlaid_change (r : Replica) (change : Change) :
    r.Overlaid [change] (r.change change).2 := by
  have hfixed := change_fixed r change
  have hmatter : Change.Matter r.get [change] ↔ r.Effective change := or_iff_left id
  by_cases heff : r.Effective change
  · rw [change_of_effective heff] at hfixed ⊢
    refine ⟨hfixed, get_write_eq r change.key change.value,
      fun hnot => absurd (hmatter.2 heff) hnot, fun _ => ?_⟩
    have hw := write_wrote r change.key change.value
    generalize r.write change.key change.value = q at hw ⊢
    cases hw with
    | within hp => exact hp
    | opening _ _ hp => exact hp
  · rw [change_of_not_effective heff]
    refine ⟨rfl, ?_, fun _ => rfl, fun h => absurd (hmatter.1 h) heff⟩
    exact (Change.overlay_of_not_matter (mt hmatter.1 heff)).symm

theorem overlaid_changeAll : ∀ (changes : List Change) (r : Replica),
    r.Overlaid changes (r.changeAll changes).2
  | [], r => .refl r
  | change :: changes, r => (overlaid_change r change).trans (overlaid_changeAll changes _)

end Replica

/-! ### Rows -/

namespace Database

variable {db db' : Database} {account : String} {dumped : List Topic}

/-- There is a table, and all rows of an account in it have the tag of a topic. -/
def Lists (db : Database) (account : String) : Prop :=
  ∃ t, db.table = some t ∧
    ∀ tag row, t.rows.find? ⟨account, tag⟩ = some row → ∃ topic : Topic, tag = topic.tag

/-- The topics that are listed for an account are those with a row. -/
theorem topicsOf_ok (h : db.topicsOf account = .ok dumped) :
    db.Lists account ∧ ∀ topic, topic ∈ dumped ↔ (db.data? ⟨account, topic⟩).isSome := by
  unfold topicsOf anyTable at h
  cases ht : db.table with
  | none =>
    rw [ht] at h
    cases h
  | some t =>
    simp only [ht, bind, Except.bind] at h
    split at h
    · cases h
    · rename_i topics htopics
      obtain rfl := Except.ok.inj h
      obtain ⟨hto, hfrom⟩ := mem_of_mapM_ok htopics
      refine ⟨⟨t, ht, fun tag row hrow => ?_⟩, fun topic => ?_⟩
      · obtain ⟨topic, -, htopic⟩ := hto (tag, row) (mem_rowsOf.2 hrow)
        exact ⟨topic, topicOf_ok_iff.1 htopic⟩
      · have hrow : (db.data? ⟨account, topic⟩).isSome ↔
            ∃ row, t.rows.find? ⟨account, topic.tag⟩ = some row := by
          simp [data?, row?, ht, Option.isSome_iff_exists]
        rw [hrow, List.mem_filter, and_iff_right (Topic.mem_all topic), List.contains_iff_mem]
        constructor
        · intro hmem
          obtain ⟨⟨tag, row⟩, hrow, htag⟩ := hfrom topic hmem
          obtain rfl := topicOf_ok_iff.1 htag
          exact ⟨row, mem_rowsOf.1 hrow⟩
        · rintro ⟨row, hrow⟩
          obtain ⟨topic', hmem, htopic'⟩ := hto (topic.tag, row) (mem_rowsOf.2 hrow)
          obtain rfl := Topic.tag_inj (topicOf_ok_iff.1 htopic')
          exact hmem

theorem Lists.topicsOf (h : db.Lists account) : ∃ dumped, db.topicsOf account = .ok dumped := by
  obtain ⟨t, ht, htags⟩ := h
  obtain ⟨topics, htopics⟩ :
      ∃ topics, (rowsOf t account).mapM (fun p => topicOf p.1) = .ok topics := by
    refine exists_mapM_ok fun ⟨tag, row⟩ hmem => ?_
    obtain ⟨topic, htopic⟩ := htags tag row (mem_rowsOf.1 hmem)
    exact ⟨topic, topicOf_ok_iff.2 htopic⟩
  refine ⟨Topic.all.filter topics.contains, ?_⟩
  unfold Database.topicsOf anyTable
  simp only [ht, bind, Except.bind]
  rw [htopics]
  rfl

theorem Lists.insert {t : DumpTable} (h : db.Lists account) (ht : db.table = some t) (key : CopyKey)
    (row : RowData) :
    (db.withRows t (t.rows.insert ⟨key.account, key.topic.tag⟩ row)).Lists account := by
  obtain ⟨t', ht', htags⟩ := h
  obtain rfl : t' = t := Option.some.inj (ht'.symm.trans ht)
  refine ⟨_, rfl, fun tag row' hrow => ?_⟩
  by_cases hkey : (⟨account, tag⟩ : RowKey) = ⟨key.account, key.topic.tag⟩
  · exact ⟨key.topic, congrArg RowKey.tag hkey⟩
  · rw [SortedMap.find?_insert_of_ne hkey] at hrow
    exact htags tag row' hrow

end Database

theorem Keeping.lists_rows {k : Keeping} {db db' : Database} {key : CopyKey} {r : Replica}
    {account : String} (h : k.rows db key r = some db') (hlists : db.Lists account) :
    db'.Lists account := by
  cases k with
  | save time =>
    simp only [rows, Database.upsert] at h
    cases ht : db.timedTable with
    | error f =>
      rw [ht] at h
      cases h
    | ok t =>
      rw [ht] at h
      obtain rfl := Option.some.inj h
      exact hlists.insert (Database.timedTable_ok_iff.1 ht).1 key _
  | refresh time =>
    simp only [rows, Database.touch] at h
    cases ht : db.timedTable with
    | error f =>
      rw [ht] at h
      cases h
    | ok t =>
      simp only [ht, bind, Except.bind] at h
      split at h
      · obtain rfl := Option.some.inj h
        exact hlists
      · obtain rfl := Option.some.inj h
        exact hlists.insert (Database.timedTable_ok_iff.1 ht).1 key _
  | leave =>
    obtain rfl := Option.some.inj h
    exact hlists

namespace Held

variable {h h' h'' : Held} {key : CopyKey} {plan : Plan}

/-- Nothing that was written down gets lost, and copies are lost only if they were before. -/
structure Grows (h h' : Held) : Prop where
  lists : ∀ account, h.database.Lists account → h'.database.Lists account
  rows : ∀ key, (h.database.data? key).isSome → (h'.database.data? key).isSome
  broken : ∀ key, h'.copies.find? key = some .broken ↔ h.copies.find? key = some .broken

theorem Grows.refl (h : Held) : h.Grows h := ⟨fun _ => id, fun _ => id, fun _ => Iff.rfl⟩

theorem Grows.trans (h₁ : h.Grows h') (h₂ : h'.Grows h'') : h.Grows h'' where
  lists account hl := h₂.lists account (h₁.lists account hl)
  rows key hr := h₂.rows key (h₁.rows key hr)
  broken key := (h₂.broken key).trans (h₁.broken key)

theorem grows_use (huse : h.use key plan = some h') : h.Grows h' := by
  obtain ⟨account, topic⟩ := key
  rcases use_eq_some huse with ⟨rfl, -⟩ | ⟨r, r', k, hr, -, hcopies, hrows⟩
  · exact .refl h'
  · refine ⟨fun _ => k.lists_rows hrows, fun key' hsome => ?_, fun key' => ?_⟩
    · rw [(Keeping.rows_eq_some hrows).2]
      split
      · rename_i heq
        subst heq
        cases k with
        | save => rfl
        | refresh | leave => exact hsome
      · exact hsome
    · rw [hcopies]
      by_cases hkey : key' = ⟨account, topic⟩
      · subst hkey
        have hready : h.copies.find? ⟨account, topic⟩ = some (.ready r) := hr
        simp [hready]
      · rw [SortedMap.find?_insert_of_ne hkey]

theorem grows_useAll {account : String} : ∀ {uses : List (Topic × Plan)} {h : Held},
    h.useAll account uses = some h' → h.Grows h'
  | [], h, huse => by
    obtain rfl := Option.some.inj huse
    exact .refl h
  | (topic, plan) :: uses, h, huse => by
    rw [useAll, List.foldlM_cons, Option.bind_eq_bind, Option.bind_eq_some_iff] at huse
    obtain ⟨h₁, hone, hrest⟩ := huse
    exact (grows_use hone).trans (grows_useAll hrest)

end Held

/-! ### Edits -/

/-- An edit of a copy, whatever account that is of. -/
structure Edit where
  env : Env
  key : CopyKey
  changes : List Change

namespace Edit

def plan (e : Edit) : Plan := .edit e.env (Replica.changeAll e.changes)

/-- The body of a write that edits copies one after the other. -/
def body (edits : List Edit) : Write (List (Option (List Bool))) :=
  Step.each (fun e => Write.edit e.env e.key (Replica.changeAll e.changes)) edits

/-- The changes that edits make to one copy, in order. -/
def changesOf (key : CopyKey) (edits : List Edit) : List Change :=
  (edits.filter (·.key = key)).flatMap changes

theorem changesOf_append (key : CopyKey) (edits others : List Edit) :
    changesOf key (edits ++ others) = changesOf key edits ++ changesOf key others := by
  simp [changesOf]

end Edit

namespace Held

variable {h h' : Held} {key : CopyKey} {r : Replica} {edits : List Edit}

/-- What edits leave of what is held. -/
def edited (h : Held) (edits : List Edit) : Option Held :=
  edits.foldlM (fun h e => h.use e.key e.plan) h

theorem edited_cons {e : Edit} (hedited : h.edited (e :: edits) = some h') :
    ∃ h₁, h.use e.key e.plan = some h₁ ∧ h₁.edited edits = some h' := by
  rwa [edited, List.foldlM_cons, Option.bind_eq_bind, Option.bind_eq_some_iff] at hedited

theorem grows_edited : ∀ {edits : List Edit} {h : Held}, h.edited edits = some h' → h.Grows h'
  | [], h, hedited => by
    obtain rfl := Option.some.inj hedited
    exact .refl h
  | e :: edits, h, hedited => by
    obtain ⟨h₁, hone, hrest⟩ := edited_cons hedited
    exact (grows_use hone).trans (grows_edited hrest)

/-- Edits of other copies leave a copy, and its row, as they are. -/
theorem edited_frame : ∀ {edits : List Edit} {h : Held}, h.edited edits = some h' →
    (∀ e ∈ edits, e.key ≠ key) →
      h'.copies.find? key = h.copies.find? key ∧ h'.database.data? key = h.database.data? key
  | [], h, hedited, _ => by
    obtain rfl := Option.some.inj hedited
    exact ⟨rfl, rfl⟩
  | e :: edits, h, hedited, hkeys => by
    obtain ⟨h₁, hone, hrest⟩ := edited_cons hedited
    obtain ⟨hkey, hkeys⟩ := List.forall_mem_cons.1 hkeys
    obtain ⟨hcopy, hdata⟩ := edited_frame hrest hkeys
    obtain ⟨hcopy₁, hdata₁⟩ := use_frame hone hkey.symm
    exact ⟨hcopy.trans hcopy₁, hdata.trans hdata₁⟩

/-- A lost copy cannot be edited. -/
theorem not_broken_of_edited : ∀ {edits : List Edit} {h : Held}, h.edited edits = some h' →
    ∀ e ∈ edits, h.copies.find? e.key ≠ some .broken
  | [], _, _, _, he => by cases he
  | e₁ :: edits, h, hedited, e, he => by
    obtain ⟨h₁, hone, hrest⟩ := edited_cons hedited
    rcases List.mem_cons.1 he with rfl | he
    · intro hbroken
      simp only [use, hbroken] at hone
      cases hone
    · exact mt ((grows_use hone).broken e.key).2 (not_broken_of_edited hrest e he)

theorem overlaid_use {e : Edit} (huse : h.use e.key e.plan = some h')
    (hr : h.copies.find? key = some (.ready r)) :
    ∃ r', h'.copies.find? key = some (.ready r') ∧ r.Overlaid (Edit.changesOf key [e]) r' := by
  by_cases hkey : e.key = key
  · subst hkey
    have hchanges : Edit.changesOf e.key [e] = e.changes := by simp [Edit.changesOf]
    rw [hchanges]
    rcases use_eq_some huse with ⟨rfl, hnone⟩ | ⟨q, r', k, hq, hplan, hcopies, -⟩
    · exact absurd hr (hnone r)
    · obtain rfl : q = r := Slot.ready_unique hq hr
      obtain ⟨rfl, rfl⟩ := Prod.ext_iff.1 (Option.some.inj hplan)
      refine ⟨_, hcopies ▸ SortedMap.find?_insert_self _ _ _, ?_⟩
      exact (q.overlaid_changeAll e.changes).keep _
  · have hchanges : Edit.changesOf key [e] = [] := by simp [Edit.changesOf, hkey]
    rw [hchanges]
    exact ⟨r, (use_frame huse (Ne.symm hkey)).1.trans hr, .refl r⟩

/-- What single changes keep of a copy, and what saving it keeps, edits keep. -/
theorem edited_induction {P : Replica → Prop} (hchange : ∀ r what, P r → P (r.change what).2)
    (hsave : ∀ r (k : Keeping), P r → P (k.copy r)) : ∀ {edits : List Edit} {h : Held} {r : Replica},
    h.edited edits = some h' → h.copies.find? key = some (.ready r) → P r →
      ∃ r', h'.copies.find? key = some (.ready r') ∧ P r'
  | [], h, r, hedited, hr, hp => by
    obtain rfl := Option.some.inj hedited
    exact ⟨r, hr, hp⟩
  | e :: edits, h, r, hedited, hr, hp => by
    obtain ⟨h₁, hone, hrest⟩ := edited_cons hedited
    by_cases hkey : e.key = key
    · rw [hkey] at hone
      rcases use_eq_some hone with ⟨rfl, hnone⟩ | ⟨q, r', k, hq, hplan, hcopies, -⟩
      · exact absurd hr (hnone r)
      · obtain rfl : q = r := Slot.ready_unique hq hr
        obtain ⟨rfl, rfl⟩ := Prod.ext_iff.1 (Option.some.inj hplan)
        have hp' := hsave _ (.ofUnsaved (q.changeAll e.changes).2 e.env.now)
          (Replica.changeAll_induction hchange e.changes q hp)
        exact edited_induction hchange hsave hrest
          (hcopies ▸ SortedMap.find?_insert_self _ _ _) hp'
    · exact edited_induction hchange hsave hrest ((use_frame hone (Ne.symm hkey)).1.trans hr) hp

/-- Edits show in a copy as the changes that are made to it, one after the other. -/
theorem overlaid_edited : ∀ {edits : List Edit} {h : Held} {r : Replica},
    h.edited edits = some h' → h.copies.find? key = some (.ready r) →
      ∃ r', h'.copies.find? key = some (.ready r') ∧ r.Overlaid (Edit.changesOf key edits) r'
  | [], h, r, hedited, hr => by
    obtain rfl := Option.some.inj hedited
    exact ⟨r, hr, .refl r⟩
  | e :: edits, h, r, hedited, hr => by
    obtain ⟨h₁, hone, hrest⟩ := edited_cons hedited
    obtain ⟨r₁, hr₁, hfirst⟩ := overlaid_use hone hr
    obtain ⟨r', hr', hlater⟩ := overlaid_edited hrest hr₁
    have hsplit : Edit.changesOf key (e :: edits) =
        Edit.changesOf key [e] ++ Edit.changesOf key edits :=
      Edit.changesOf_append key [e] edits
    exact ⟨r', hr', hsplit ▸ hfirst.trans hlater⟩

end Held

/-! ### Commits -/

namespace Device

/-- Writes that edit copies commit one after the other, in surroundings with a certain engine. -/
def Edits (c : Cipher) (limit : Nat) : Device → List (List Edit) → Device → Prop
  | d, [], d' => d' = d
  | d, edits :: rest, d' => (∀ e ∈ edits, e.env.engine = .plain c limit) ∧
    (∃ replies, (d.write (Edit.body edits)).1 = .ok replies) ∧
    Edits c limit (d.write (Edit.body edits)).2 rest d'

theorem Edits.append : ∀ {commits others : List (List Edit)} {d d' d'' : Device},
    d.Edits c limit commits d' → d'.Edits c limit others d'' →
      d.Edits c limit (commits ++ others) d''
  | [], _, _, _, _, h, h' => by
    obtain rfl := h
    exact h'
  | _ :: _, _, _, _, _, ⟨henv, hcommits, hrest⟩, h' => ⟨henv, hcommits, hrest.append h'⟩

/-- Of commits, what a device holds shows the edits only. -/
theorem Edits.held : ∀ {commits : List (List Edit)} {d d' : Device}, d.Edits c limit commits d' →
    d.held.edited commits.flatten = some d'.held
  | [], d, d', h => by
    obtain rfl := h
    rfl
  | edits :: rest, d, d', ⟨henv, hcommits, hrest⟩ => by
    have hleaves := write_commits_iff.1 ⟨hcommits, rfl⟩
    have heach : ∀ w, (Edit.body edits).leaves Work.held w = w.held.edited edits :=
      Step.leaves_each fun e he w => Write.leaves_edit (henv e he) e.key _ w
    have hone : d.held.edited edits = some (d.write (Edit.body edits)).2.held :=
      (heach d.start).symm.trans hleaves
    rw [List.flatten_cons, Held.edited, List.foldlM_append, ← Held.edited, hone]
    exact hrest.held

end Device

end AccountSync
