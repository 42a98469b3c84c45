import AccountSync.Proofs.SortedMap
import AccountSync.Store.Database
/-!
The rows of a database: what is fetched of them, and what each operation does to the row of a key
(`Database.rowAt?_upsert`, `Database.rowAt?_touch`).
-/

namespace AccountSync

/-! ### Results of many reads -/

section MapM

variable {ε α β : Type} {f : α → Except ε β}

theorem exists_of_isOk {x : Except ε α} (h : x.isOk = true) : ∃ a, x = .ok a := by
  cases x with
  | error e => cases h
  | ok a => exact ⟨a, rfl⟩

/-- A result of two reads comes from a result of the first. -/
theorem exists_of_bind_ok {x : Except ε α} {g : α → Except ε β} {b : β} (h : (x >>= g) = .ok b) :
    ∃ a, x = .ok a ∧ g a = .ok b := by
  cases x with
  | error e => cases h
  | ok a => exact ⟨a, rfl, h⟩

theorem mapM_cons_ok {a : α} {l : List α} {bs : List β} (h : (a :: l).mapM f = .ok bs) :
    ∃ b bs', f a = .ok b ∧ l.mapM f = .ok bs' ∧ bs = b :: bs' := by
  rw [List.mapM_cons] at h
  obtain ⟨b, hb, h⟩ := exists_of_bind_ok h
  obtain ⟨bs', hbs, h⟩ := exists_of_bind_ok h
  exact ⟨b, bs', hb, hbs, (Except.ok.inj h).symm⟩

theorem mem_of_mapM_ok : ∀ {l : List α} {bs : List β}, l.mapM f = .ok bs →
    (∀ a ∈ l, ∃ b ∈ bs, f a = .ok b) ∧ ∀ b ∈ bs, ∃ a ∈ l, f a = .ok b
  | [], bs, h => by
    obtain rfl := Except.ok.inj h
    simp
  | a :: l, bs, h => by
    obtain ⟨b, bs', hb, hbs, rfl⟩ := mapM_cons_ok h
    obtain ⟨hto, hfrom⟩ := mem_of_mapM_ok hbs
    refine ⟨List.forall_mem_cons.2 ⟨⟨b, List.mem_cons_self, hb⟩, fun a' ha => ?_⟩,
      List.forall_mem_cons.2 ⟨⟨a, List.mem_cons_self, hb⟩, fun b' hb' => ?_⟩⟩
    · obtain ⟨b', hb', hf⟩ := hto a' ha
      exact ⟨b', List.mem_cons_of_mem b hb', hf⟩
    · obtain ⟨a', ha, hf⟩ := hfrom b' hb'
      exact ⟨a', List.mem_cons_of_mem a ha, hf⟩

theorem exists_mapM_ok : ∀ {l : List α}, (∀ a ∈ l, ∃ b, f a = .ok b) → ∃ bs, l.mapM f = .ok bs
  | [], _ => ⟨[], rfl⟩
  | a :: l, h => by
    obtain ⟨b, hb⟩ := h a List.mem_cons_self
    obtain ⟨bs, hbs⟩ := exists_mapM_ok fun a' ha => h a' (List.mem_cons_of_mem a ha)
    exact ⟨b :: bs, by rw [List.mapM_cons, hb, hbs]; rfl⟩

theorem mem_of_mapM_error {e : ε} : ∀ {l : List α}, l.mapM f = .error e → ∃ a ∈ l, f a = .error e
  | a :: l, h => by
    rw [List.mapM_cons] at h
    cases hb : f a with
    | error e' =>
      rw [hb] at h
      obtain rfl := Except.error.inj h
      exact ⟨a, List.mem_cons_self, hb⟩
    | ok b =>
      cases hbs : l.mapM f with
      | error e' =>
        rw [hb, hbs] at h
        obtain rfl := Except.error.inj h
        obtain ⟨a', ha, hf⟩ := mem_of_mapM_error hbs
        exact ⟨a', List.mem_cons_of_mem a ha, hf⟩
      | ok bs =>
        rw [hb, hbs] at h
        cases h

/-- What is read of each in order has in order what they say of it. -/
theorem map_of_mapM_ok {γ : Type} {p : α → γ} {q : β → γ} (hf : ∀ a b, f a = .ok b → q b = p a) :
    ∀ {l : List α} {bs : List β}, l.mapM f = .ok bs → bs.map q = l.map p
  | [], bs, h => by
    obtain rfl := Except.ok.inj h
    rfl
  | a :: l, bs, h => by
    obtain ⟨b, bs', hb, hbs, rfl⟩ := mapM_cons_ok h
    rw [List.map_cons, List.map_cons, hf a b hb, map_of_mapM_ok hf hbs]

end MapM

/-! ### Rows of an account -/

namespace Database

theorem mem_rowsOf {t : DumpTable} {account tag : String} {row : RowData} :
    (tag, row) ∈ rowsOf t account ↔ t.rows.find? ⟨account, tag⟩ = some row := by
  rw [← SortedMap.mem_toList]
  simp only [rowsOf, List.mem_filterMap]
  constructor
  · rintro ⟨⟨key, row'⟩, hmem, h⟩
    dsimp only at h
    split at h
    · rename_i hacc
      obtain ⟨rfl, rfl⟩ : key.tag = tag ∧ row' = row := by simpa using h
      rwa [← hacc]
    · cases h
  · intro h
    exact ⟨_, h, by simp⟩

/-- The rows of an account stand in order of their tags. -/
theorem increasing_rowsOf (t : DumpTable) (account : String) :
    (rowsOf t account).Pairwise fun a b => compare a.1 b.1 = .lt := by
  refine List.pairwise_filterMap.2 (t.rows.increasing.imp fun {p q} hpq a ha b hb => ?_)
  obtain ⟨key, row⟩ := p
  obtain ⟨key', row'⟩ := q
  dsimp only at ha hb
  split at ha
  · rename_i hkey
    split at hb
    · rename_i hkey'
      cases ha
      cases hb
      have hsame : compareOn RowKey.account key key' = .eq := by
        rw [compareOn, hkey, hkey']
        exact Std.ReflCmp.compare_self
      have hlt : (compareOn RowKey.account key key').then (compareOn RowKey.tag key key') = .lt := hpq
      rwa [hsame] at hlt
    · cases hb
  · cases ha

/-- The rows of an account as a map from their tags. -/
def rowsByTag (t : DumpTable) (account : String) : SortedMap String RowData :=
  ⟨rowsOf t account, increasing_rowsOf t account⟩

theorem find?_rowsByTag (t : DumpTable) (account tag : String) :
    (rowsByTag t account).find? tag = t.rows.find? ⟨account, tag⟩ :=
  Option.ext fun _ => SortedMap.mem_toList.symm.trans mem_rowsOf

/-- What is read of an account is told by its own rows. -/
theorem rowsOf_congr {t t' : DumpTable} {account : String}
    (h : ∀ tag, t'.rows.find? ⟨account, tag⟩ = t.rows.find? ⟨account, tag⟩) :
    rowsOf t' account = rowsOf t account := by
  have hmap : rowsByTag t' account = rowsByTag t account :=
    SortedMap.ext_find? fun tag => by rw [find?_rowsByTag, find?_rowsByTag, h]
  exact congrArg SortedMap.toList hmap

/-- All rows of an account can be fetched: there is a table for them, and each has the tag of a
topic. -/
def Fetches (db : Database) (account : String) : Prop :=
  ∃ t, db.table = some t ∧ t.timed = true ∧
    ∀ tag row, t.rows.find? ⟨account, tag⟩ = some row → ∃ topic : Topic, tag = topic.tag

theorem topicOf_ok_iff {tag : String} {topic : Topic} :
    topicOf tag = .ok topic ↔ tag = topic.tag := by
  constructor
  · intro h
    unfold topicOf at h
    split at h
    · rename_i topic' hfind
      obtain rfl := Except.ok.inj h
      have := List.find?_some hfind
      exact (eq_of_beq this).symm
    · cases h
  · rintro rfl
    simp [topicOf, Topic.ofTag?_tag]

theorem timedTable_ok_iff {db : Database} {t : DumpTable} :
    db.timedTable = .ok t ↔ db.table = some t ∧ t.timed = true := by
  unfold timedTable anyTable
  cases db.table with
  | none => simp [bind, Except.bind]
  | some t' =>
    cases h : t'.timed <;> simp [bind, Except.bind, h, pure, Except.pure]
    · rintro rfl
      exact h
    · rintro rfl
      exact h

/-- The dump in a row, if its tag is that of a topic. -/
def dumpOf (account : String) (p : String × RowData) : Except Failure Dump :=
  (topicOf p.1).map fun topic => ⟨topic, account, p.2.data, p.2.time⟩

theorem dumpOf_ok_iff {account tag : String} {row : RowData} {d : Dump} :
    dumpOf account (tag, row) = .ok d ↔
      tag = d.topic.tag ∧ d = ⟨d.topic, account, row.data, row.time⟩ := by
  rw [← topicOf_ok_iff, dumpOf]
  cases topicOf tag with
  | error f => simp [Except.map]
  | ok topic =>
    simp only [Except.map, Except.ok.injEq]
    constructor
    · rintro rfl
      exact ⟨rfl, rfl⟩
    · rintro ⟨rfl, hd⟩
      exact hd.symm

theorem fetchAll_eq {db : Database} {account : String} {t : DumpTable}
    (ht : db.timedTable = .ok t) :
    db.fetchAll account = (rowsOf t account).mapM (dumpOf account) := by
  rw [fetchAll, ht]
  rfl

theorem exists_fetchAll_ok {db : Database} {account : String} (h : db.Fetches account) :
    ∃ dumps, db.fetchAll account = .ok dumps := by
  obtain ⟨t, hdb, htimed, htags⟩ := h
  rw [fetchAll_eq (timedTable_ok_iff.2 ⟨hdb, htimed⟩)]
  refine exists_mapM_ok fun ⟨tag, row⟩ hmem => ?_
  obtain ⟨topic, htopic⟩ := htags tag row (mem_rowsOf.1 hmem)
  exact ⟨⟨topic, account, row.data, row.time⟩, dumpOf_ok_iff.2 ⟨htopic, rfl⟩⟩

/-! ### Rows by their keys -/

variable {db db' : Database} {account : String}

/-- The row of a key, which need not be that of a topic. -/
def rowAt? (db : Database) (k : RowKey) : Option RowData := db.table.bind (·.rows.find? k)

theorem rowAt?_of_table {t : DumpTable} (h : db.table = some t) (k : RowKey) :
    db.rowAt? k = t.rows.find? k := by
  rw [rowAt?, h, Option.bind_some]

theorem rowAt?_upsert {d : Dump} (h : db.upsert d = .ok db') (k : RowKey) :
    db'.rowAt? k = if k = ⟨d.account, d.topic.tag⟩ then some ⟨d.data, d.time⟩ else db.rowAt? k := by
  cases ht : db.timedTable with
  | error f => simp [upsert, ht, bind, Except.bind] at h
  | ok t =>
    have hdb := (timedTable_ok_iff.1 ht).1
    simp only [upsert, ht, bind, Except.bind, pure, Except.pure, Except.ok.injEq] at h
    subst h
    split
    · rename_i heq
      rw [heq]
      exact SortedMap.find?_insert_self _ _ _
    · rename_i hne
      rw [rowAt?, rowAt?, hdb]
      exact SortedMap.find?_insert_of_ne hne

theorem rowAt?_touch {topic : Topic} {time : Int} {n : Nat}
    (h : db.touch topic account time = .ok (n, db')) (k : RowKey) :
    db'.rowAt? k = if k = ⟨account, topic.tag⟩ then (db.rowAt? k).map ({ · with time })
      else db.rowAt? k := by
  cases ht : db.timedTable with
  | error f => simp [touch, ht, bind, Except.bind] at h
  | ok t =>
    have hdb := (timedTable_ok_iff.1 ht).1
    simp only [touch, ht, bind, Except.bind, pure, Except.pure] at h
    cases hrow : t.rows.find? ⟨account, topic.tag⟩ with
    | none =>
      simp only [hrow, Except.ok.injEq, Prod.mk.injEq] at h
      obtain ⟨-, rfl⟩ := h
      split
      · rename_i heq
        rw [rowAt?, hdb, heq, Option.bind_some, hrow]
        rfl
      · rfl
    | some row =>
      simp only [hrow, Except.ok.injEq, Prod.mk.injEq] at h
      obtain ⟨-, rfl⟩ := h
      split
      · rename_i heq
        rw [heq, rowAt?, rowAt?, hdb, Option.bind_some, hrow]
        exact SortedMap.find?_insert_self _ _ _
      · rename_i hne
        rw [rowAt?, rowAt?, hdb]
        exact SortedMap.find?_insert_of_ne hne

theorem rowAt?_removeAll {n : Nat} (h : db.removeAll account = .ok (n, db')) (k : RowKey) :
    db'.rowAt? k = if k.account = account then none else db.rowAt? k := by
  cases ht : db.table with
  | none => simp [removeAll, anyTable, ht, bind, Except.bind] at h
  | some t =>
    simp only [removeAll, anyTable, ht, bind, Except.bind, pure, Except.pure, Except.ok.injEq,
      Prod.mk.injEq] at h
    obtain ⟨-, rfl⟩ := h
    have hfind := t.rows.find?_filter_key (fun k => k.account != account) k
    rw [rowAt?_of_table ht, rowAt?_of_table rfl]
    refine hfind.trans ?_
    by_cases hk : k.account = account <;> simp [hk]

end Database

end AccountSync
