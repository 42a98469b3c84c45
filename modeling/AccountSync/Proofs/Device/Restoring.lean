import AccountSync.Proofs.Device.Plans
import AccountSync.Proofs.Store.Schema
/-!
Loading an account, topic by topic. In a database of the present schema the rows of an account can
always be fetched (`Database.Migrated.fetches`), so that loading never fails: each topic gets the copy
that its own row tells of, or none if that cannot be read (`Database.initial?`), whatever the other
rows hold and however sequence numbers are counted (`Write.load_by_topic`).
-/

namespace AccountSync

variable {c : Cipher} {limit : Nat} {counting : Counting}

/-! ### The copies of the topics -/

namespace Database

variable {db db' : Database}

/-- The copy that a topic starts with: an empty one without a row, else the one that the row tells of,
if it can be read and its number can be counted on. -/
def initial? (db : Database) (limit : Nat) (counting : Counting) (secret : Secret)
    (key : CopyKey) : Option Replica :=
  match db.data? key with
  | none => some (Replica.fresh key.topic secret limit)
  | some data => (Replica.ofDump key.topic secret limit data counting).toOption

theorem initial?_congr {key : CopyKey} (h : db'.data? key = db.data? key) (limit : Nat)
    (counting : Counting) (secret : Secret) :
    db'.initial? limit counting secret key = db.initial? limit counting secret key := by
  rw [initial?, h, initial?]

theorem start_toOption {secret : Bytes} {s : Secret} (hs : Secret.ofBytes secret = .ok s)
    (db : Database) (key : CopyKey) :
    ((Engine.plain c limit counting).start key.topic secret (db.data? key)).toOption =
      db.initial? limit counting s key := by
  simp only [Engine.plain, hs, initial?, bind, Except.bind]
  cases db.data? key with
  | none => rfl
  | some data =>
    dsimp only
    cases Replica.ofDump key.topic s limit data counting <;> rfl

end Database

namespace Write

variable {env : Env} {account : String} {secret : Bytes} {s : Secret} {dumps : List Dump}
  {db : Database}

/-- The topics of which copies are started are the ones that start with a copy. -/
theorem mem_startable (hs : Secret.ofBytes secret = .ok s)
    (hdumps : db.fetchAll account = .ok dumps) (topic : Topic) :
    topic ∈ (Engine.plain c limit counting).startable secret (Dump.starts dumps) ↔
      (db.initial? limit counting s ⟨account, topic⟩).isSome := by
  rw [← Database.start_toOption (c := c) hs db ⟨account, topic⟩]
  simp only [Engine.startable, List.mem_map, List.mem_filter]
  constructor
  · rintro ⟨⟨topic, data⟩, ⟨hmem, hstarts⟩, rfl⟩
    obtain rfl := (Dump.mem_starts hdumps).1 hmem
    obtain ⟨copy, hcopy⟩ := exists_of_isOk hstarts
    exact congrArg (Option.isSome ∘ Except.toOption) hcopy
  · intro hstarts
    refine ⟨(topic, _), ⟨(Dump.mem_starts hdumps).2 rfl, ?_⟩, rfl⟩
    cases hstart : (Engine.plain c limit counting).start topic secret
        (db.data? ⟨account, topic⟩) with
    | ok copy => exact congrArg Except.isOk hstart
    | error t =>
      rw [hstart] at hstarts
      cases hstarts

/-- Loading an account where nothing is loaded never fails, writes no row, and gives each topic the copy
that its own row tells of: nothing else in the database has a part in it. A row of edits under the
greatest number gives none where the count breaks off there. With something loaded already, loading
does nothing. -/
theorem load_by_topic {d : Device} (hnone : d.copies = ∅) (hdb : d.database.Migrated)
    (hengine : env.engine = .plain c limit counting) (account : String)
    (hsecret : secret.length = 32 ∨ secret.length = 64) :
    ∃ s cs, Secret.ofBytes secret = .ok s ∧
      load env account (some secret) d.start =
        (.ok (Topic.byRank.filter fun t =>
            (d.database.initial? limit counting s ⟨account, t⟩).isSome),
          { d.start with device := { d with copies := cs } }) ∧
      (∀ t, cs.find? ⟨account, t⟩ =
        (d.database.initial? limit counting s ⟨account, t⟩).map .ready) ∧
      (∀ key, key.account ≠ account → cs.find? key = none) ∧
      (∀ d₂ : Device, d₂.copies = ∅ → d₂.database.Migrated → ∀ t,
        d₂.database.data? ⟨account, t⟩ = d.database.data? ⟨account, t⟩ →
        (load env account (some secret) d₂.start).2.device.copies.find? ⟨account, t⟩ =
          cs.find? ⟨account, t⟩) ∧
      ∀ w : Work, w.device.copies ≠ ∅ → ∀ env account secret,
        load env account secret w = (.ok [], w) := by
  have hne : secret ≠ [] := by
    rintro rfl
    simp at hsecret
  obtain ⟨s, hs⟩ : ∃ s, Secret.ofBytes secret = .ok s := ⟨_, dif_pos hsecret⟩
  -- The copy of each topic, in any such database.
  have hslot : ∀ db : Database, db.Migrated → ∀ t,
      (db.loadCopies env.engine account secret).find? ⟨account, t⟩ =
        (db.initial? limit counting s ⟨account, t⟩).map .ready := fun db hdb t => by
    rw [db.find?_loadCopies _ _ t (hdb.fetches account) hne, hengine]
    exact congrArg (Option.map Slot.ready) (Database.start_toOption hs db ⟨account, t⟩)
  obtain ⟨dumps, hdumps⟩ := Database.exists_fetchAll_ok (hdb.fetches account)
  obtain ⟨result, hrun⟩ := load_run hnone env account secret
  have hresult : result = .ok (Topic.byRank.filter fun t =>
      (d.database.initial? limit counting s ⟨account, t⟩).isSome) := by
    refine (congrArg Prod.fst (hrun.symm.trans (load_fetched hnone env hne hdumps))).trans ?_
    rw [hengine]
    refine congrArg Except.ok (List.filter_congr fun t _ => ?_)
    rw [Bool.eq_iff_iff, List.contains_iff_mem]
    exact mem_startable hs hdumps t
  refine ⟨s, _, hs, hresult ▸ hrun, hslot _ hdb, fun key hkey =>
    d.database.find?_loadCopies_of_ne _ _ hkey, fun d₂ hnone₂ hdb₂ t hsame => ?_,
    fun w hloaded env account secret => load_of_loaded hloaded env account secret⟩
  obtain ⟨result₂, hrun₂⟩ := load_run hnone₂ env account secret
  rw [hrun₂]
  exact (hslot _ hdb₂ t).trans ((congrArg _ (Database.initial?_congr hsame limit counting s)).trans
    (hslot _ hdb t).symm)

/-- A row that cannot be read keeps one topic from being loaded, and one whose number the count does
not go beyond another. A second load does nothing. -/
theorem load_by_topic_corrupt_contacts :
    let env : Env := { Env.bare .xchacha20Poly1305 Replica.defaultLimit "05" with
      engine := .plain .xchacha20Poly1305 Replica.defaultLimit .checked }
    let secret : Bytes := List.replicate 32 0
    let named := ((Replica.fresh .userProfile default).set "name" [65]).2.toStanding
    let last : Standing := { phase := .edited, seq := Counting.greatest }
    let copy := Replica.restore .userProfile default Replica.defaultLimit { named with seq := 2 }
    let rows := (((∅ : SortedMap RowKey RowData).insert ⟨"05", Topic.contacts.tag⟩
      ⟨[0xde, 0xad], 1⟩).insert ⟨"05", Topic.userProfile.tag⟩ ⟨Standing.layout.put named, 1⟩).insert
      ⟨"05", Topic.userGroups.tag⟩ ⟨Standing.layout.put last, 1⟩
    let d : Device := { database := Database.migrated.withRows ⟨true, true, ∅⟩ rows }
    ∃ cs, load env "05" (some secret) d.start =
        (.ok [.userProfile, .convoInfoVolatile],
          { d.start with device := { d with copies := cs } }) ∧
      cs.find? ⟨"05", .userProfile⟩ = some (.ready copy) ∧ copy.get "name" = some [65] ∧
      cs.find? ⟨"05", .contacts⟩ = none ∧ cs.find? ⟨"05", .userGroups⟩ = none ∧
      ∀ w : Work, w.device.copies = cs → load env "06" (some secret) w = (.ok [], w) := by
  intro env secret named last copy rows d
  have hdb : d.database.Migrated := ⟨_, rfl, rfl, (((DumpTable.Checked.empty true).insert "05"
    .contacts ⟨[0xde, 0xad], 1⟩).insert "05" .userProfile ⟨Standing.layout.put named, 1⟩).insert
    "05" .userGroups ⟨Standing.layout.put last, 1⟩⟩
  have hnone : d.copies = ∅ := rfl
  have hengine : env.engine = .plain .xchacha20Poly1305 Replica.defaultLimit .checked := rfl
  have hsecret : secret.length = 32 ∨ secret.length = 64 := by decide
  obtain ⟨s, cs, hs, hrun, hslot, -, -, hagain⟩ := load_by_topic hnone hdb hengine "05" hsecret
  obtain rfl : default = s := Except.ok.inj hs
  have hprofile : cs.find? ⟨"05", .userProfile⟩ = some (.ready copy) :=
    (hslot .userProfile).trans (by decide +kernel)
  refine ⟨cs, ?_, hprofile, by decide +kernel, (hslot .contacts).trans (by decide +kernel),
    (hslot .userGroups).trans (by decide +kernel),
    fun w hw => hagain w (fun hnone => ?_) env "06" (some secret)⟩
  · rw [hrun]
    congr 2
    decide +kernel
  · rw [← hw, hnone] at hprofile
    cases hprofile

end Write

end AccountSync
