import AccountSync.Proofs.Device.History
/-!
What plans do to the row of a copy, and when they lose something: a plan that changes the entries of
a copy and does not write its row leaves a row that tells of other entries. Edits and local writes
do so in one case (`Plan.edit_loses_iff`, `Plan.follow_loses_iff`), merges never
(`Plan.not_share_loses`).
-/

namespace AccountSync

/-! ### Rows -/

namespace Database

variable {db : Database} {t : DumpTable}

/-- The data of the row of a topic. -/
def data? (db : Database) (key : CopyKey) : Option Bytes := (db.row? key).map RowData.data

theorem Fetches.insert (h : db.Fetches account) (ht : db.table = some t) (key : CopyKey)
    (row : RowData) :
    (db.withRows t (t.rows.insert ⟨key.account, key.topic.tag⟩ row)).Fetches account := by
  obtain ⟨t', ht', htimed, htags⟩ := h
  obtain rfl : t' = t := Option.some.inj (ht'.symm.trans ht)
  refine ⟨_, rfl, htimed, fun tag row' hrow => ?_⟩
  by_cases hkey : (⟨account, tag⟩ : RowKey) = ⟨key.account, key.topic.tag⟩
  · exact ⟨key.topic, congrArg RowKey.tag hkey⟩
  · rw [SortedMap.find?_insert_of_ne hkey] at hrow
    exact htags tag row' hrow

theorem data?_insert (ht : db.table = some t) (key key' : CopyKey) (row : RowData) :
    (db.withRows t (t.rows.insert ⟨key.account, key.topic.tag⟩ row)).data? key' =
      if key' = key then some row.data else db.data? key' := by
  have hrow : (db.withRows t (t.rows.insert ⟨key.account, key.topic.tag⟩ row)).row? key' =
      (t.rows.insert ⟨key.account, key.topic.tag⟩ row).find? ⟨key'.account, key'.topic.tag⟩ := rfl
  rw [data?, hrow]
  split
  · rename_i heq
    rw [heq, SortedMap.find?_insert_self]
    rfl
  · rename_i hne
    rw [SortedMap.find?_insert_of_ne, data?, row?, ht]
    · rfl
    · intro heq
      obtain ⟨hacc, htag⟩ := RowKey.mk.inj heq
      have htopic := Topic.tag_inj htag
      cases key
      cases key'
      exact hne (congrArg₂ CopyKey.mk hacc htopic)

end Database

namespace Keeping

/-- The data of a row about which that was done. -/
def data (r : Replica) (old : Option Bytes) : Keeping → Option Bytes
  | save _ => some (Standing.layout.put r.toStanding)
  | refresh _ | leave => old

/-- The row is left as it is, but for its time. -/
def Idle : Keeping → Prop
  | save _ => False
  | refresh _ | leave => True

theorem copy_live (k : Keeping) (r : Replica) : (k.copy r).live = r.live := by
  cases k <;> rfl

theorem copy_toStanding (k : Keeping) (r : Replica) : (k.copy r).toStanding = r.toStanding := by
  cases k <;> rfl

theorem copy_fixed (k : Keeping) (r : Replica) : (k.copy r).fixed = r.fixed := by
  cases k <;> rfl

/-- Of all rows, only that of the copy gets other data; the account's can still be fetched. -/
theorem rows_eq_some {k : Keeping} {db db' : Database} {key : CopyKey} {r : Replica}
    (h : k.rows db key r = some db') :
    (db.Fetches key.account → db'.Fetches key.account) ∧
      ∀ key', db'.data? key' = if key' = key then k.data r (db.data? key) else db.data? key' := by
  have hsame : ∀ key', db.data? key' = if key' = key then db.data? key else db.data? key' := by
    intro key'
    split
    · rename_i heq
      rw [heq]
    · rfl
  cases k with
  | save time =>
    simp only [rows, Database.upsert] at h
    cases ht : db.timedTable with
    | error f =>
      rw [ht] at h
      cases h
    | ok t =>
      rw [ht] at h
      obtain rfl := Option.some.inj h
      have hdb := (Database.timedTable_ok_iff.1 ht).1
      exact ⟨fun hf => hf.insert hdb key _, fun key' => Database.data?_insert hdb key key' _⟩
  | refresh time =>
    simp only [rows, Database.touch] at h
    cases ht : db.timedTable with
    | error f =>
      rw [ht] at h
      cases h
    | ok t =>
      have hdb := (Database.timedTable_ok_iff.1 ht).1
      simp only [ht, bind, Except.bind] at h
      cases hrow : t.rows.find? ⟨key.account, key.topic.tag⟩ with
      | none =>
        rw [hrow] at h
        obtain rfl := Option.some.inj h
        exact ⟨id, hsame⟩
      | some row =>
        rw [hrow] at h
        obtain rfl := Option.some.inj h
        refine ⟨fun hf => hf.insert hdb key _, fun key' => ?_⟩
        have hold : db.data? key = some row.data := by
          rw [Database.data?, Database.row?, hdb, Option.bind_some, hrow]
          rfl
        rw [Database.data?_insert hdb, data, hold]
  | leave =>
    obtain rfl := Option.some.inj h
    exact ⟨id, hsame⟩

end Keeping

/-! ### Changes -/

namespace Replica

variable {r : Replica}

theorem changeAll_cons (change : Change) (changes : List Change) (r : Replica) :
    (changeAll (change :: changes) r).2 = (changeAll changes (r.change change).2).2 := rfl

/-- What each change keeps, several changes keep. -/
theorem changeAll_induction {P : Replica → Prop}
    (h : ∀ r (what : Change), P r → P (r.change what).2) :
    ∀ (changes : List Change) (r : Replica), P r → P (r.changeAll changes).2
  | [], _, hr => hr
  | what :: changes, r, hr => changeAll_induction h changes _ (h r what hr)

theorem changeAll_fixed (changes : List Change) (r : Replica) :
    (r.changeAll changes).2.fixed = r.fixed :=
  changeAll_induction (P := fun r' => r'.fixed = r.fixed)
    (fun r' what hr' => (change_fixed r' what).trans hr') changes r rfl

/-- In an open generation of edits, changes leave the mark as it is. -/
theorem changeAll_of_edited : ∀ {changes : List Change} {r : Replica}, r.phase = .edited →
    (r.changeAll changes).2.phase = .edited ∧ (r.changeAll changes).2.unsaved = r.unsaved
  | [], _, h => ⟨h, rfl⟩
  | change :: changes, r, h => by
    rw [changeAll_cons]
    by_cases heff : r.Effective change
    · rw [change_of_effective heff]
      have hw := write_wrote r change.key change.value
      generalize r.write change.key change.value = r' at hw ⊢
      cases hw with
      | within => exact changeAll_of_edited h
      | opening _ hp => exact absurd h hp
    · rw [change_of_not_effective heff]
      exact changeAll_of_edited h

/-- And they leave its number. -/
theorem changeAll_seq_of_edited (changes : List Change) {r : Replica} (h : r.phase = .edited) :
    (r.changeAll changes).2.seq = r.seq := by
  refine (changeAll_induction (P := fun r' => r'.phase = .edited ∧ r'.seq = r.seq)
    (fun r' what hr' => ?_) changes r ⟨h, rfl⟩).2
  by_cases heff : r'.Effective what
  · rw [change_of_effective heff]
    have hw := write_wrote r' what.key what.value
    generalize r'.write what.key what.value = r'' at hw ⊢
    cases hw with
    | within => exact hr'
    | opening _ hp => exact absurd hr'.1 hp
  · rw [change_of_not_effective heff]
    exact hr'

/-- Otherwise, changes do nothing, or mark the copy. -/
theorem changeAll_of_not_edited : ∀ (changes : List Change) {r : Replica}, r.phase ≠ .edited →
    (r.changeAll changes).2 = r ∨ (r.changeAll changes).2.unsaved = true
  | [], _, _ => .inl rfl
  | change :: changes, r, h => by
    rw [changeAll_cons]
    by_cases heff : r.Effective change
    · rw [change_of_effective heff]
      have hw := write_wrote r change.key change.value
      generalize r.write change.key change.value = r' at hw ⊢
      cases hw with
      | within hp => exact absurd hp h
      | opening _ _ hp hu => exact .inr ((changeAll_of_edited hp).2.trans hu)
    · rw [change_of_not_effective heff]
      exact changeAll_of_not_edited changes h

/-- Entries change in an open generation of edits, and the copy counts as saved. -/
def Hidden (r r' : Replica) : Prop := r.phase = .edited ∧ r.unsaved = false ∧ r'.live ≠ r.live

instance (r r' : Replica) : Decidable (r.Hidden r') := inferInstanceAs (Decidable (_ ∧ _ ∧ _))

theorem hidden_changeAll_iff (changes : List Change) :
    r.Hidden (r.changeAll changes).2 ↔
      (r.changeAll changes).2.unsaved = false ∧ (r.changeAll changes).2.live ≠ r.live := by
  by_cases hp : r.phase = .edited
  · rw [Hidden, (changeAll_of_edited hp).2]
    exact and_iff_right hp
  · rcases changeAll_of_not_edited changes hp with h | h
    · rw [Hidden, h]
      exact ⟨fun hh => absurd rfl hh.2.2, fun hh => absurd rfl hh.2⟩
    · rw [Hidden, h]
      exact ⟨fun hh => absurd hh.1 hp, fun hh => absurd hh.1 (by decide)⟩

end Replica

/-! ### Losses -/

namespace Plan

variable {r : Replica}

/-- The plan changes the entries of a copy, but not the data of its row. -/
def Loses (plan : Plan) (r : Replica) : Prop :=
  ∃ r' k, plan r = some (r', k) ∧ k.Idle ∧ r'.live ≠ r.live

theorem loses_iff {plan : Plan} {r' : Replica} {k : Keeping} (h : plan r = some (r', k)) :
    plan.Loses r ↔ k.Idle ∧ r'.live ≠ r.live := by
  constructor
  · rintro ⟨r₁, k₁, h₁, hloss⟩
    obtain ⟨rfl, rfl⟩ := Prod.ext_iff.1 (Option.some.inj (h.symm.trans h₁))
    exact hloss
  · intro hloss
    exact ⟨r', k, h, hloss⟩

end Plan

theorem Keeping.idle_ofUnsaved {r : Replica} {time : Int} :
    (ofUnsaved r time).Idle ↔ r.unsaved = false := by
  unfold ofUnsaved
  cases r.unsaved <;> simp [Idle]

namespace Plan

variable {r : Replica}

theorem edit_loses_iff (changes : List Change) :
    (edit env (Replica.changeAll changes)).Loses r ↔ r.Hidden (r.changeAll changes).2 := by
  rw [loses_iff rfl, Keeping.idle_ofUnsaved, Replica.hidden_changeAll_iff]

theorem follow_loses_iff {topic : Topic} {change : Change}
    (hhonest : (env.handler topic).Honest) :
    (follow env topic change).Loses r ↔ ((env.handler topic).applyLocal change r).1.isOk ∧
      r.Hidden ((env.handler topic).applyLocal change r).2 := by
  rcases happly : (env.handler topic).applyLocal change r with ⟨t | changed, r'⟩
  · have hplan : follow env topic change r = none := by simp only [follow, happly]
    simp [Loses, hplan, Except.isOk, Except.toBool]
  · have hplan : follow env topic change r =
        some (r', if changed then .ofUnsaved r' env.now else .leave) := by
      simp only [follow, happly]
    obtain ⟨⟨changes, rfl⟩, hsame⟩ := hhonest change r changed r' happly
    rw [loses_iff hplan, Replica.hidden_changeAll_iff]
    refine Iff.trans ?_ (and_iff_right rfl).symm
    cases changed with
    | true => exact and_congr_left fun _ => Keeping.idle_ofUnsaved
    | false =>
      rw [hsame rfl]
      exact ⟨fun h => absurd rfl h.2, fun h => absurd rfl h.2⟩

theorem not_share_loses (c : Cipher) (env : Env) (key : CopyKey) (share : List Message)
    (r : Replica) : ¬ (Plan.share c env key share).Loses r := by
  rintro ⟨r', k, hplan, hidle, hlive⟩
  have hentries : (r.merge c (Receive.batch share)).1 = [] →
      (r.merge c (Receive.batch share)).2.entries = r.entries :=
    fun h => (Replica.merge_of_none c h).2.2
  have hmarked := Replica.merge_eq_or_unsaved c r (Receive.batch share)
  unfold Plan.share at hplan
  generalize r.merge c (Receive.batch share) = x at hentries hmarked hplan
  obtain ⟨accepted, r₁⟩ := x
  dsimp only at hentries hmarked hplan
  by_cases hnone : accepted = []
  · rw [if_pos hnone] at hplan
    cases hplan
    exact hlive (congrArg Entries.live (hentries hnone))
  · rw [if_neg hnone] at hplan
    split at hplan
    · cases hplan
      rcases hmarked with rfl | hmarked
      · exact hlive rfl
      · rw [if_pos hmarked] at hidle
        exact hidle
    · cases hplan

end Plan

end AccountSync
