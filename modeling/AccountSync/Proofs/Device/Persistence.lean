import AccountSync.Proofs.Device.Reception
/-!
What a batch of messages leaves in storage. A copy that was saved before is saved after it: its row is
written if the merge changed it. The exception are batches of which nothing is accepted: the hash of a
stale message is retired in memory, and the copy is marked, but its row is not written
(`Device.receive_persists`). A restart forgets such a hash (`Device.not_saved_stale`).
-/

namespace AccountSync

open Step

variable {c : Cipher} {limit : Nat} {env : Env} {account : String} {key : CopyKey}

/-! ### Merges that accept nothing -/

namespace Replica

variable {r : Replica}

/-- The hashes of the messages that a copy can read. -/
def legible (c : Cipher) (r : Replica) (batch : List (String × Bytes)) : List String :=
  (batch.filter fun m => (r.read? c m.2).isSome).map Prod.fst

theorem legible_congr {r' : Replica} (h : r'.fixed = r.fixed) (batch : List (String × Bytes)) :
    r'.legible c batch = r.legible c batch := by
  simp only [legible, read?_congr h]

/-- Nothing is accepted of a batch, though some of it can be read: that is stale. -/
def Spurns (c : Cipher) (r : Replica) (batch : List (String × Bytes)) : Prop :=
  (r.merge c batch).1 = [] ∧ r.legible c batch ≠ []

instance (c : Cipher) (r : Replica) (batch : List (String × Bytes)) :
    Decidable (r.Spurns c batch) :=
  inferInstanceAs (Decidable (_ ∧ _))

/-- A merge that accepts nothing retires the hashes of what it can read. -/
theorem merge_of_refused : ∀ {batch : List (String × Bytes)} {r : Replica},
    (r.merge c batch).1 = [] → (r.merge c batch).2 =
      { r with
        retired := r.retired.addAll (r.legible c batch)
        unsaved := r.unsaved || !(r.legible c batch).isEmpty }
  | [], r, _ => by simp [merge, legible, SortedSet.addAll]
  | (hash, payload) :: batch, r, h => by
    rw [merge_cons] at h ⊢
    dsimp only at h ⊢
    cases hone : (r.takePayload c hash payload).1 with
    | true => simp [hone] at h
    | false =>
      rw [hone] at h
      have hrest := merge_of_refused h
      rw [hrest]
      rcases takePayload_cases c r hash payload with ⟨hread, heq⟩ | ⟨g, hread, heq⟩
      · rw [heq]
        simp [legible, hread]
      · rw [heq] at hone ⊢
        have ht := take_took r hash g
        have hfixed := take_fixed r hash g
        generalize r.take hash g = x at ht hone hfixed ⊢
        cases ht with
        | stale =>
          rw [legible_congr hfixed]
          simp [legible, hread, SortedSet.addAll]
        | known | copied | adopted | combined => cases hone

end Replica

/-! ### One share -/

theorem Database.data?_eq_rowAt? (db : Database) (key : CopyKey) :
    db.data? key = (db.rowAt? ⟨key.account, key.topic.tag⟩).map RowData.data := rfl

/-- What is left of a copy that was saved, and of its row, after a merge. -/
structure Replica.Persisted (c : Cipher) (r : Replica) (batch : List (String × Bytes))
    (data : Option Bytes) (r' : Replica) (data' : Option Bytes) : Prop where
  merged : r'.toStanding = (r.merge c batch).2.toStanding
  spurned : r.Spurns c batch → data' = data ∧
    r' = { r with retired := r.retired.addAll (r.legible c batch), unsaved := true }
  saved : ¬ r.Spurns c batch → r'.unsaved = false ∧
    (r' = r ∧ data' = data ∨ data' = some (Standing.layout.put r'.toStanding))

theorem Engine.merge_of_plain (henv : env.engine = .plain c limit) {batch : List (String × Bytes)}
    {hashes : List String} {r r₁ : Replica} (h : env.engine.merge batch r = (.ok hashes, r₁)) :
    r.merge c batch = (hashes, r₁) := by
  rw [henv] at h
  obtain ⟨hhashes, hr⟩ := Prod.ext_iff.1 h
  exact Prod.ext (Except.ok.inj hhashes) hr

/-- A merge that accepts nothing is not saved, and changes nothing unless all it could read is stale. -/
theorem Replica.persisted_of_refused {r : Replica} {batch : List (String × Bytes)}
    (hnone : (r.merge c batch).1 = []) (hsaved : r.unsaved = false) (data : Option Bytes) :
    r.Persisted c batch data (r.merge c batch).2 data := by
  have hr := merge_of_refused hnone
  refine ⟨rfl, fun hspurns => ⟨rfl, ?_⟩, fun hspurns => ?_⟩
  · rw [hr]
    simp [hspurns.2]
  · have hlegible : r.legible c batch = [] := by
      by_contra hne
      exact hspurns ⟨hnone, hne⟩
    have hsame : (r.merge c batch).2 = r := by
      rw [hr, hlegible]
      simp [SortedSet.addAll]
    rw [hsame]
    exact ⟨hsaved, .inl ⟨rfl, rfl⟩⟩

/-- A merge that accepts something is saved, unless it has changed nothing. -/
theorem Receive.Kept.persisted (henv : env.engine = .plain c limit) {latest : Int} {db db' : Database}
    {r r₁ r' : Replica} {batch : List (String × Bytes)} (h : Kept env key latest r₁ db r' db')
    (hmerged : (r.merge c batch).2 = r₁) (hspurns : ¬ r.Spurns c batch) :
    r.Persisted c batch (db.data? key) r' (db'.data? key) := by
  cases h with
  | saved data _ _ _ hsave hup =>
    have hsave : (.ok (Standing.layout.put r₁.toStanding), { r₁ with unsaved := false }) =
        ((.ok data, r') : Except Trouble Bytes × Replica) := by
      rw [← hsave, henv]
      rfl
    obtain ⟨hdata, rfl⟩ := Prod.ext_iff.1 hsave
    obtain rfl := Except.ok.inj hdata
    refine ⟨by rw [hmerged], fun h => absurd h hspurns, fun _ => ⟨rfl, .inr ?_⟩⟩
    rw [Database.data?_eq_rowAt?, Database.rowAt?_upsert hup, if_pos rfl]
    rfl
  | refreshed n _ hunsaved htouch =>
    have hsame : r₁ = r := by
      refine hmerged.symm.trans ((Replica.merge_eq_or_unsaved c r batch).resolve_right ?_)
      intro hmarked
      rw [hmerged, hunsaved] at hmarked
      cases hmarked
    refine ⟨by rw [hmerged], fun h => absurd h hspurns, fun _ => ⟨hunsaved, .inl ⟨hsame, ?_⟩⟩⟩
    rw [Database.data?_eq_rowAt?, Database.rowAt?_touch htouch, if_pos rfl, Option.map_map]
    rfl

theorem Receive.Took.persisted (henv : env.engine = .plain c limit) {share : List Message}
    {r r' : Replica} {db db' : Database} {o : Outcome} {calls : List Applied}
    (h : Took env key share r db o calls r' db') (hsaved : r.unsaved = false) :
    r.Persisted c (batch share) (db.data? key) r' (db'.data? key) := by
  cases h with
  | refused _ hmerge =>
    have hmerge := Engine.merge_of_plain henv hmerge
    have hpersisted := Replica.persisted_of_refused (congrArg Prod.fst hmerge) hsaved (db.data? key)
    rwa [hmerge] at hpersisted
  | accepted hashes r₁ _ _ hmerge hne hkept =>
    have hmerge := Engine.merge_of_plain henv hmerge
    refine hkept.persisted henv (congrArg Prod.snd hmerge) fun hspurns => hne ?_
    exact (congrArg Prod.fst hmerge).symm.trans hspurns.1

/-! ### A batch -/

namespace Receive

variable {messages : List Message} {w w' : Work} {os : List (Option Outcome)} {calls : List Applied}

/-- The copy of a topic that the batch does not mention stays, and each other one is taken. -/
theorem Taken.part_or_same (h : Taken env account messages w w' os calls) (t : Topic) :
    share messages t = [] ∧ w'.place ⟨account, t⟩ = w.place ⟨account, t⟩ ∨
      ∃ o calls, Part env ⟨account, t⟩ (share messages t) w w' o calls := by
  by_cases hshare : share messages t = []
  · exact .inl ⟨hshare, h.elsewhere.place fun hmem => mem_map_shares.1 hmem hshare⟩
  · obtain ⟨o, calls, -, hpart⟩ := h.parts.part (mem_shares.2 ⟨rfl, hshare⟩)
    exact .inr ⟨o, calls, hpart⟩

theorem Part.persisted (henv : env.engine = .plain c limit) {share : List Message}
    {o : Option Outcome} (h : Part env key share w w' o calls) {r : Replica}
    (hslot : w.device.copies.find? key = some (.ready r)) (hsaved : r.unsaved = false) :
    ∃ r', w'.device.copies.find? key = some (.ready r') ∧
      r.Persisted c (batch share) (w.tx.database.data? key) r' (w'.tx.database.data? key) := by
  cases h with
  | missing hnone =>
    rw [hslot] at hnone
    cases hnone
  | took q r' db db' o calls htook hbefore hafter =>
    obtain rfl : r = q := Slot.ready_unique hslot (congrArg Prod.fst hbefore)
    have hdata : w.tx.database.data? key = db.data? key :=
      congrArg (Option.map RowData.data) (congrArg Prod.snd hbefore)
    have hdata' : w'.tx.database.data? key = db'.data? key :=
      congrArg (Option.map RowData.data) (congrArg Prod.snd hafter)
    rw [hdata, hdata']
    exact ⟨r', congrArg Prod.fst hafter, htook.persisted henv hsaved⟩

/-- A batch loads no copies. -/
theorem Taken.has_before (h : Taken env account messages w w' os calls) {t : Topic} {r' : Replica}
    (hslot : w'.device.copies.find? ⟨account, t⟩ = some (.ready r')) :
    ∃ r, w.device.copies.find? ⟨account, t⟩ = some (.ready r) := by
  rcases h.part_or_same t with ⟨-, hplace⟩ | ⟨o, calls, hpart⟩
  · exact ⟨r', (congrArg Prod.fst hplace).symm.trans hslot⟩
  · cases hpart with
    | missing _ hplace => exact ⟨r', (congrArg Prod.fst hplace).symm.trans hslot⟩
    | took r _ _ _ _ _ _ hbefore => exact ⟨r, congrArg Prod.fst hbefore⟩

theorem Taken.persisted (henv : env.engine = .plain c limit)
    (h : Taken env account messages w w' os calls) {t : Topic} {r : Replica}
    (hslot : w.device.copies.find? ⟨account, t⟩ = some (.ready r)) (hsaved : r.unsaved = false) :
    ∃ r', w'.device.copies.find? ⟨account, t⟩ = some (.ready r') ∧
      r.Persisted c (batch (share messages t)) (w.tx.database.data? ⟨account, t⟩) r'
        (w'.tx.database.data? ⟨account, t⟩) := by
  rcases h.part_or_same t with ⟨hshare, hplace⟩ | ⟨o, calls, hpart⟩
  · refine ⟨r, (congrArg Prod.fst hplace).trans hslot, ?_⟩
    rw [hshare]
    refine ⟨rfl, fun hspurns => absurd rfl hspurns.2, fun _ => ⟨hsaved, .inl ⟨rfl, ?_⟩⟩⟩
    exact congrArg (Option.map RowData.data) (congrArg Prod.snd hplace)
  · exact hpart.persisted henv hslot hsaved

end Receive

/-- The copies of an account were saved when they last changed. -/
def Held.Saved (account : String) (h : Held) : Prop :=
  ∀ t r, h.Has account t r → r.unsaved = false

theorem Held.forall_has_iff {h : Held} {P : Topic → Replica → Prop} :
    (∀ t r, h.Has account t r → P t r) ↔ ∀ t ∈ Topic.all, ∀ r ∈ h.copy? account t, P t r :=
  ⟨fun hall t _ r hr => hall t r (copy?_eq_some.1 hr),
    fun hall t r hr => hall t (Topic.mem_all t) r (copy?_eq_some.2 hr)⟩

instance (account : String) (h : Held) : Decidable (h.Saved account) :=
  decidable_of_iff _ Held.forall_has_iff.symm

namespace Device

/-- What a batch of messages leaves of copies that were saved. They are all saved afterwards unless
there is one of which all that could be read was stale: that one has retired the hashes and is marked,
and its row stays as it was. Of every other copy that has changed, the row tells the new standing. -/
theorem receive_persists (henv : env.engine = .plain c limit) {messages : List Message}
    {d d' : Device} {outcomes : List Outcome} (hsaved : d.held.Saved account)
    (hwrite : d.write (Write.receive env account messages) = (.ok outcomes, d')) :
    (d'.held.Saved account ↔ ∀ t r, d.held.Has account t r →
      ¬ r.Spurns c (Receive.batch (Receive.share messages t))) ∧
    ∀ t r, d.held.Has account t r → ∃ r', d'.held.Has account t r' ∧
      r.Persisted c (Receive.batch (Receive.share messages t)) (d.database.data? ⟨account, t⟩) r'
        (d'.database.data? ⟨account, t⟩) ∧
      (¬ r.Spurns c (Receive.batch (Receive.share messages t)) → r'.toStanding ≠ r.toStanding →
        r'.Fits → d'.database.standing? ⟨account, t⟩ = some r'.toStanding) := by
  rcases hrun : Write.receive env account messages d.start with ⟨result, w'⟩
  have hclosed : (result, w'.finish (.ofResult result)) = (.ok outcomes, d') := by
    rw [← hwrite, write, hrun]
  obtain ⟨rfl, rfl⟩ := Prod.mk.inj hclosed
  obtain ⟨os, calls, -, htaken⟩ := Receive.taken_of_ok hrun
  refine ⟨⟨fun hafter t r hr hspurns => ?_, fun hspurns t r' hr' => ?_⟩, fun t r hr => ?_⟩
  · obtain ⟨r', hr', hpersisted⟩ := htaken.persisted henv hr (hsaved t r hr)
    have hunsaved := hafter t r' hr'
    rw [(hpersisted.spurned hspurns).2] at hunsaved
    cases hunsaved
  · obtain ⟨r, hr⟩ := htaken.has_before hr'
    obtain ⟨q, hq, hpersisted⟩ := htaken.persisted henv hr (hsaved t r hr)
    obtain rfl : r' = q := Slot.ready_unique hr' hq
    exact (hpersisted.saved (hspurns t r hr)).1
  · obtain ⟨r', hr', hpersisted⟩ := htaken.persisted henv hr (hsaved t r hr)
    refine ⟨r', hr', hpersisted, fun hspurns hchanged hfits => ?_⟩
    rcases (hpersisted.saved hspurns).2 with ⟨rfl, -⟩ | hdata
    · exact absurd rfl hchanged
    · exact Database.standing?_put hfits.words hfits.length hdata

/-- Contacts at their second generation, as the swarm stores it. -/
def atSecond : Replica :=
  { Replica.fresh .contacts default with
    seq := 2, entries := (∅ : Entries).insert "a" ⟨some [2], 2⟩, current := some "h2" }

/-- A device with a copy of the contacts, and the row that tells of it. -/
def withContacts (r : Replica) : Device where
  copies := (∅ : Copies).insert ⟨"05", .contacts⟩ (.ready r)
  database := Database.migrated.withRows ⟨true, true, ∅⟩
    ((∅ : SortedMap RowKey RowData).insert ⟨"05", Topic.contacts.tag⟩
      ⟨Standing.layout.put r.toStanding, 0⟩)

/-- After a stale message and a new one, the row tells of both. -/
theorem receive_persists_stale_and_new :
    let env : Env := { engine := .plain .clear, identity := some "05", now := 900 }
    let messages : List Message :=
      [⟨.contacts, 1, Cipher.clearPayload .contacts 1 [1], none, some "h1"⟩,
        ⟨.contacts, 3, Cipher.clearPayload .contacts 3 [3], none, some "h3"⟩]
    ∃ outcomes d', (withContacts atSecond).write (Write.receive env "05" messages) =
        (.ok outcomes, d') ∧ d'.held.Saved "05" ∧
      (d'.database.standing? ⟨"05", .contacts⟩).map (fun s => (s.seq, s.current, s.retired.keys)) =
        some (3, some "h3", ["h1", "h2"]) := by
  intro env messages
  have hsorted : Receive.sorted messages = messages := Receive.sorted_of_pairwise (by decide)
  have hok : ((withContacts atSecond).write (Write.receive env "05" messages)).1.isOk := by
    unfold Write.receive Receive.shares
    rw [hsorted]
    decide +kernel
  obtain ⟨outcomes, houtcomes⟩ := exists_of_isOk hok
  have hsaved : (withContacts atSecond).held.Saved "05" := by decide +kernel
  obtain ⟨hafter, hrows⟩ := receive_persists rfl hsaved (Prod.ext houtcomes rfl)
  have hshare : ∀ t, Receive.share messages t = messages.filter (·.topic = t) := fun t => by
    rw [Receive.share, hsorted]
  simp only [hshare] at hafter hrows
  have hnone : ∀ t r, (withContacts atSecond).held.Has "05" t r →
      ¬ r.Spurns .clear (Receive.batch (messages.filter (·.topic = t))) :=
    Held.forall_has_iff.2 (by decide +kernel)
  have hcontacts : (withContacts atSecond).held.Has "05" .contacts atSecond := rfl
  obtain ⟨r', -, hpersisted, hstanding⟩ := hrows .contacts atSecond hcontacts
  -- What the merge makes of the copy, by running it.
  have hfits : (atSecond.merge .clear (Receive.batch messages)).2.Fits := by decide +kernel
  have hchanged : (atSecond.merge .clear (Receive.batch messages)).2.toStanding ≠
      atSecond.toStanding := by decide +kernel
  have hmerged : r'.toStanding = (atSecond.merge .clear (Receive.batch messages)).2.toStanding :=
    hpersisted.merged
  refine ⟨outcomes, _, Prod.ext houtcomes rfl, hafter.2 hnone, ?_⟩
  rw [hstanding (hnone _ _ hcontacts) (hmerged ▸ hchanged)
    ⟨hmerged ▸ hfits.words, hmerged ▸ hfits.length⟩, hmerged]
  decide +kernel

/-- After a stale message alone, the copy has retired its hash, but is not saved: the row tells nothing
of it, and neither does the copy that is started from the row. -/
theorem not_saved_stale :
    let env : Env := { engine := .plain .clear, identity := some "05", now := 900 }
    let secret : Bytes := List.replicate 32 0
    let messages : List Message :=
      [⟨.contacts, 1, Cipher.clearPayload .contacts 1 [1], none, some "h1"⟩]
    let (result, d') := (withContacts atSecond).write (Write.receive env "05" messages)
    (withContacts atSecond).held.Saved "05" ∧ result.isOk ∧ ¬ d'.held.Saved "05" ∧
      (d'.held.copy? "05" .contacts).map (·.retired.keys) = some ["h1"] ∧
      (d'.database.standing? ⟨"05", .contacts⟩).map (·.retired.keys) = some [] ∧
      ((d'.reload env "05" secret).held.copy? "05" .contacts).map (·.retired.keys) = some [] := by
  intro env secret messages
  have hsorted : Receive.sorted messages = messages := Receive.sorted_of_pairwise (by decide)
  unfold Write.receive Receive.shares
  rw [hsorted]
  decide +kernel

end Device

end AccountSync
