import Mathlib.Data.List.Forall2
import AccountSync.Proofs.Device.Numbering
import AccountSync.Proofs.Device.Recording
/-!
What a batch of messages does to a device, whatever the engine and the handlers are. A share that was
taken is merged into its copy, and if the merge accepts something, the handler is told, and the row is
written or refreshed (`Receive.Took`). The shares are of different topics, so each is taken as if it
were the only one (`Receive.each_takeShare`). From this come what a call reports, whom it tells, and
which rows it changes (`Receive.result_of_ok`).
-/

namespace AccountSync

open Step

variable {α : Type} {env : Env} {account : String} {key : CopyKey}

/-! ### Counters -/

/-- Counts what became of a topic's share. -/
def Stats.take (s : Stats) (o : Outcome) : Stats :=
  (s.merge o.received o.hashes.length).save (if o.needsDump then 1 else 0)

/-! ### Parts of a write that gave a result -/

namespace Work

/-- Handlers were called. -/
def tell (w : Work) (calls : List Applied) : Work :=
  { w with device := { w.device with applied := w.device.applied ++ calls } }

/-- The rows are now these. -/
def onRows (w : Work) (db : Database) : Work := { w with tx := { w.tx with database := db } }

/-- The notes are now these. -/
def onNotes (w : Work) (undo : Hooks Undo) : Work := { w with tx := { w.tx with undo } }

end Work

namespace Write

variable {w w' : Work}

theorem checkpoint_eq_ok {found : Bool} (h : checkpoint key w = (.ok found, w')) :
    ∃ undo, w' = w.onNotes undo ∧ (found = true ↔ (w.device.copies.find? key).isSome) := by
  unfold checkpoint at h
  split at h
  · rename_i hslot
    obtain ⟨hfound, rfl⟩ := Prod.ext_iff.1 h
    exact ⟨w.tx.undo, rfl, by rw [← Except.ok.inj hfound, hslot]; simp⟩
  · rename_i slot hslot
    split at h
    · obtain ⟨hfound, rfl⟩ := Prod.ext_iff.1 h
      exact ⟨w.tx.undo, rfl, by rw [← Except.ok.inj hfound, hslot]; simp⟩
    · split at h
      · cases h
      · obtain ⟨hfound, rfl⟩ := Prod.ext_iff.1 h
        exact ⟨_, rfl, by rw [← Except.ok.inj hfound, hslot]; simp⟩

theorem use_eq_ok {x : Use α} {a : Option α} (h : use key x w = (.ok a, w')) :
    w.device.copies.find? key = none ∧ a = none ∧ w' = w ∨
      ∃ r b r' w₁, w.device.copies.find? key = some (.ready r) ∧ x (r, w) = (.ok b, (r', w₁)) ∧
        a = some b ∧ w' = settle w₁ key (.ready r') := by
  cases hslot : w.device.copies.find? key with
  | none =>
    rw [use_of_none x hslot] at h
    obtain ⟨ha, rfl⟩ := Prod.ext_iff.1 h
    exact .inl ⟨rfl, (Except.ok.inj ha).symm, rfl⟩
  | some slot =>
    cases slot with
    | broken =>
      rw [use_of_broken x hslot] at h
      cases h
    | ready r =>
      rcases hx : x (r, w) with ⟨⟨f | text⟩ | b, r', w₁⟩ <;> simp only [use, hslot, hx] at h
      · cases h
      · cases h
      · obtain ⟨ha, rfl⟩ := Prod.ext_iff.1 h
        exact .inr ⟨r, b, r', w₁, rfl, hx, (Except.ok.inj ha).symm, rfl⟩

end Write

namespace Use

variable {r : Replica} {w : Work} {s' : Replica × Work}

theorem guarded_eq_ok {topic : Topic} {operation : String}
    {f : Replica → Except Trouble α × Replica} {a : α}
    (h : guarded topic operation f (r, w) = (.ok a, s')) :
    ∃ r', f r = (.ok a, r') ∧ s' = (r', w) := by
  rcases hf : f r with ⟨t | b, r'⟩
  · rw [guarded_of_error w hf] at h
    cases h
  · rw [guarded_of_ok w hf] at h
    obtain ⟨ha, rfl⟩ := Prod.ext_iff.1 h
    obtain rfl := Except.ok.inj ha
    exact ⟨r', rfl, rfl⟩

/-- What a copy is saved as: nothing if it has not changed since it was saved. -/
theorem store?_eq_ok {time : Int} {stored : Bool}
    (h : store? env key time (r, w) = (.ok stored, s')) :
    stored = false ∧ r.unsaved = false ∧ s' = (r, w) ∨
      ∃ data r' db, stored = true ∧ r.unsaved = true ∧ env.engine.save r = (.ok data, r') ∧
        w.tx.database.upsert ⟨key.topic, key.account, data, time⟩ = .ok db ∧
        s' = (r', w.onRows db) := by
  rw [store?] at h
  obtain ⟨dump, s₁, hdump, h⟩ := bind_eq_ok h
  cases hu : r.unsaved with
  | false =>
    rw [dump?_of_saved hu] at hdump
    obtain ⟨rfl, rfl⟩ := pure_eq_ok hdump
    obtain ⟨rfl, rfl⟩ := pure_eq_ok h
    exact .inl ⟨rfl, rfl, rfl⟩
  | true =>
    rw [dump?_of_unsaved hu] at hdump
    obtain ⟨data, s₂, hdata, hdump⟩ := bind_eq_ok hdump
    obtain ⟨r', hsave, rfl⟩ := guarded_eq_ok hdata
    obtain ⟨rfl, rfl⟩ := pure_eq_ok hdump
    obtain ⟨_, s₃, hstore, h⟩ := bind_eq_ok h
    obtain ⟨rfl, rfl⟩ := pure_eq_ok h
    cases hup : w.tx.database.upsert ⟨key.topic, key.account, data, time⟩ with
    | error f =>
      rw [outside_run (Write.store_of_error hup)] at hstore
      cases hstore
    | ok db =>
      rw [outside_run (Write.store_of_ok hup)] at hstore
      obtain rfl := congrArg Prod.snd hstore
      exact .inr ⟨data, r', db, rfl, rfl, hsave, hup, rfl⟩

end Use

/-! ### One share -/

namespace Receive

variable {r r' : Replica} {w w' : Work} {share : List Message}

/-- What becomes of a copy that a handler was told of, and of the rows. -/
inductive Kept (env : Env) (key : CopyKey) (latest : Int) (r : Replica) (db : Database) :
    Replica → Database → Prop where
  | saved (data : Bytes) (r' : Replica) (db' : Database) : r.unsaved = true →
      env.engine.save r = (.ok data, r') →
      db.upsert ⟨key.topic, key.account, data, latest⟩ = .ok db' → Kept env key latest r db r' db'
  | refreshed (n : Nat) (db' : Database) : r.unsaved = false →
      db.touch key.topic key.account latest = .ok (n, db') → Kept env key latest r db r db'

/-- What a handler is told of a merge, and what the copy has then. -/
def callOf (env : Env) (key : CopyKey) (r : Replica) (latest : Int) : Applied :=
  ⟨(env.handler key.topic).name, key.topic, r.live, ⟨key.account, r.unsaved, latest⟩⟩

/-- What comes of the merge of a share: the outcome, the calls of the handler, the copy and the rows.
-/
inductive Took (env : Env) (key : CopyKey) (share : List Message) (r : Replica) (db : Database) :
    Outcome → List Applied → Replica → Database → Prop where
  | refused (r₁ : Replica) : env.engine.merge (batch share) r = (.ok [], r₁) →
      Took env key share r db
        { topic := key.topic, received := (batch share).length, needsPush := r₁.needsPush } [] r₁ db
  | accepted (hashes : List String) (r₁ r₂ : Replica) (db' : Database) :
      env.engine.merge (batch share) r = (.ok hashes, r₁) → hashes ≠ [] →
      Kept env key (latest env share hashes) r₁ db r₂ db' →
      Took env key share r db
        { topic := key.topic, received := (batch share).length, needsPush := r₂.needsPush,
          needsDump := r₁.unsaved, hashes, latest := some (latest env share hashes) }
        [callOf env key r₁ (latest env share hashes)] r₂ db'

theorem tell_eq_ok {latest : Int} {s' : Replica × Work} {u : Unit}
    (h : tell env key latest (r, w) = (.ok u, s')) :
    s' = (r, w.tell [callOf env key r latest]) := by
  cases happly : (env.handler key.topic).apply r ⟨key.account, r.unsaved, latest⟩ with
  | error t =>
    obtain ⟨t', htell⟩ := tell_of_error w happly
    rw [htell] at h
    cases h
  | ok _ =>
    simp only [tell, bind, Use.copy, happly] at h
    exact (congrArg Prod.snd h).symm

theorem keep_eq_ok {latest : Int} {s' : Replica × Work} {u : Unit}
    (h : keep env key latest (r, w) = (.ok u, s')) :
    ∃ r' db, Kept env key latest r w.tx.database r' db ∧ s' = (r', w.onRows db) := by
  have hcopy : Use.copy (r, w) = (.ok r, (r, w)) := rfl
  rw [keep, bind_run_ok hcopy] at h
  cases hu : r.unsaved with
  | true =>
    simp only [hu, if_true] at h
    obtain ⟨stored, s₁, hstored, h⟩ := bind_eq_ok h
    obtain ⟨-, rfl⟩ := pure_eq_ok h
    rcases Use.store?_eq_ok hstored with ⟨-, hsaved, -⟩ | ⟨data, r', db, -, -, hsave, hup, rfl⟩
    · rw [hu] at hsaved
      cases hsaved
    · exact ⟨r', db, .saved data r' db hu hsave hup, rfl⟩
  | false =>
    simp only [hu, Bool.false_eq_true, if_false] at h
    obtain ⟨n, s₁, htouched, h⟩ := bind_eq_ok h
    obtain ⟨-, rfl⟩ := pure_eq_ok h
    cases htouch : w.tx.database.touch key.topic key.account latest with
    | error f =>
      rw [Use.outside_run (Write.rows_of_error htouch)] at htouched
      cases htouched
    | ok touched =>
      rw [Use.outside_run (Write.rows_of_ok htouch)] at htouched
      obtain rfl := congrArg Prod.snd htouched
      exact ⟨r, touched.2, .refreshed touched.1 touched.2 hu htouch, rfl⟩

theorem mergeShare_eq_ok {o : Outcome} {s' : Replica × Work}
    (h : mergeShare env key share (r, w) = (.ok o, s')) :
    ∃ calls r' db, Took env key share r w.tx.database o calls r' db ∧
      s' = (r', (w.tell calls).onRows db) := by
  obtain ⟨hashes, s₁, hmerged, h⟩ := bind_eq_ok h
  obtain ⟨r₁, hmerge, rfl⟩ := Use.guarded_eq_ok hmerged
  have hcopy : ∀ s : Replica × Work, Use.copy s = (.ok s.1, s) := fun _ => rfl
  by_cases hnone : hashes = []
  · subst hnone
    simp only [if_true] at h
    rw [bind_run_ok (hcopy _)] at h
    obtain ⟨rfl, rfl⟩ := pure_eq_ok h
    exact ⟨[], r₁, w.tx.database, .refused r₁ hmerge, by simp [Work.tell, Work.onRows]⟩
  · simp only [if_neg hnone] at h
    rw [bind_run_ok (hcopy _)] at h
    obtain ⟨_, s₂, htold, h⟩ := bind_eq_ok h
    obtain rfl := tell_eq_ok htold
    obtain ⟨_, s₃, hkept, h⟩ := bind_eq_ok h
    obtain ⟨r₂, db, hkeep, rfl⟩ := keep_eq_ok hkept
    rw [bind_run_ok (hcopy _)] at h
    obtain ⟨rfl, rfl⟩ := pure_eq_ok h
    exact ⟨_, r₂, db, .accepted hashes r₁ r₂ db hmerge hnone hkeep, rfl⟩

theorem takeShare_eq_ok {o : Option Outcome} (h : takeShare env key share w = (.ok o, w')) :
    ∃ undo, w.device.copies.find? key = none ∧ o = none ∧ w' = w.onNotes undo ∨
      ∃ r o' calls r' db, w.device.copies.find? key = some (.ready r) ∧
        Took env key share r w.tx.database o' calls r' db ∧ o = some o' ∧
        w' = Write.settle (((w.onNotes undo).tell calls).onRows db) key (.ready r') := by
  obtain ⟨found, w₁, hcheck, h⟩ := bind_eq_ok h
  obtain ⟨undo, rfl, hfound⟩ := Write.checkpoint_eq_ok hcheck
  refine ⟨undo, ?_⟩
  cases found with
  | false =>
    obtain ⟨rfl, rfl⟩ := pure_eq_ok h
    exact .inl ⟨by simpa using hfound, rfl, rfl⟩
  | true =>
    rcases Write.use_eq_ok h with ⟨hslot, rfl, rfl⟩ | ⟨r, o', r', w₂, hslot, hrun, rfl, rfl⟩
    · exact .inl ⟨hslot, rfl, rfl⟩
    · obtain ⟨calls, r₂, db, htook, hs⟩ := mergeShare_eq_ok hrun
      obtain ⟨rfl, rfl⟩ := Prod.mk.inj hs
      exact .inr ⟨r, o', calls, r', db, hslot, htook, rfl, rfl⟩

/-! ### Rows -/

theorem Kept.rowAt? {latest : Int} {db db' : Database} (h : Kept env key latest r db r' db')
    (k : RowKey) :
    (k ≠ ⟨key.account, key.topic.tag⟩ → db'.rowAt? k = db.rowAt? k) ∧
      (k = ⟨key.account, key.topic.tag⟩ → ∀ row, db'.rowAt? k = some row → row.time = latest) := by
  cases h with
  | saved data _ _ _ _ hup =>
    rw [Database.rowAt?_upsert hup]
    refine ⟨fun hne => if_neg hne, fun heq row hrow => ?_⟩
    rw [if_pos heq] at hrow
    exact congrArg RowData.time (Option.some.inj hrow).symm
  | refreshed n _ _ htouch =>
    rw [Database.rowAt?_touch htouch]
    refine ⟨fun hne => if_neg hne, fun heq row hrow => ?_⟩
    rw [if_pos heq] at hrow
    obtain ⟨old, -, rfl⟩ := Option.map_eq_some_iff.1 hrow
    rfl

/-! ### Outcomes -/

variable {db db' : Database} {o : Outcome} {calls : List Applied}

theorem Took.topic (h : Took env key share r db o calls r' db') : o.topic = key.topic := by
  cases h <;> rfl

theorem Took.received (h : Took env key share r db o calls r' db') :
    o.received = (batch share).length := by
  cases h <;> rfl

theorem Took.merge (h : Took env key share r db o calls r' db') :
    ∃ r₁, env.engine.merge (batch share) r = (.ok o.hashes, r₁) := by
  cases h with
  | refused _ hmerge => exact ⟨_, hmerge⟩
  | accepted _ r₁ _ _ hmerge => exact ⟨r₁, hmerge⟩

theorem Took.latest (h : Took env key share r db o calls r' db') :
    o.latest = if o.hashes = [] then none else some (Receive.latest env share o.hashes) := by
  cases h with
  | refused => rfl
  | accepted _ _ _ _ _ hnone => exact (if_neg hnone).symm

/-- The row of a copy that has taken a message has the time of the newest one. -/
theorem Took.dated (h : Took env key share r db o calls r' db') (hnone : o.hashes ≠ [])
    {row : RowData} (hrow : db'.rowAt? ⟨key.account, key.topic.tag⟩ = some row) :
    o.latest = some row.time := by
  cases h with
  | refused => exact absurd rfl hnone
  | accepted _ _ _ _ _ _ hkept => rw [(hkept.rowAt? _).2 rfl row hrow]

theorem Took.database_of_refused (h : Took env key share r db o calls r' db')
    (hnone : o.hashes = []) : db' = db := by
  cases h with
  | refused => rfl
  | accepted _ _ _ _ _ hne => exact absurd hnone hne

theorem Took.rowAt?_of_ne (h : Took env key share r db o calls r' db') {k : RowKey}
    (hk : k ≠ ⟨key.account, key.topic.tag⟩) : db'.rowAt? k = db.rowAt? k := by
  cases h with
  | refused => rfl
  | accepted _ _ _ _ _ _ hkept => exact (hkept.rowAt? k).1 hk

end Receive

/-! ### All shares of a batch -/

/-- The place of a copy: its slot and its row. -/
def Work.place (w : Work) (key : CopyKey) : Option Slot × Option RowData :=
  (w.device.copies.find? key, w.tx.database.rowAt? ⟨key.account, key.topic.tag⟩)

namespace Receive

variable {w w₁ w' v v' : Work} {share : List Message} {o : Option Outcome} {calls : List Applied}

/-- A share of a batch is taken in a copy that is there before the batch, and is left as it is after
it; or the copy is not loaded. -/
inductive Part (env : Env) (key : CopyKey) (share : List Message) (w w' : Work) :
    Option Outcome → List Applied → Prop where
  | missing : w.device.copies.find? key = none → w'.place key = w.place key →
      Part env key share w w' none []
  | took (r r' : Replica) (db db' : Database) (o : Outcome) (calls : List Applied) :
      Took env key share r db o calls r' db' →
      w.place key = (some (.ready r), db.rowAt? ⟨key.account, key.topic.tag⟩) →
      w'.place key = (some (.ready r'), db'.rowAt? ⟨key.account, key.topic.tag⟩) →
      Part env key share w w' (some o) calls

theorem Part.congr (h : Part env key share w w' o calls) (hw : v.place key = w.place key)
    (hw' : v'.place key = w'.place key) : Part env key share v v' o calls := by
  cases h with
  | missing hslot hplace =>
    exact .missing ((congrArg Prod.fst hw).trans hslot) (hw'.trans (hplace.trans hw.symm))
  | took r r' db db' o calls htook hbefore hafter =>
    exact .took r r' db db' o calls htook (hw.trans hbefore) (hw'.trans hafter)

/-- The shares of a batch, with what is reported of each and what the handlers are told. -/
inductive Parts (env : Env) (account : String) (w w' : Work) :
    List (Topic × List Message) → List (Option Outcome) → List Applied → Prop where
  | nil : Parts env account w w' [] [] []
  | cons {topic : Topic} {share : List Message} {o : Option Outcome} {calls : List Applied}
      {shares : List (Topic × List Message)} {os : List (Option Outcome)} {later : List Applied} :
      Part env ⟨account, topic⟩ share w w' o calls → Parts env account w w' shares os later →
      Parts env account w w' ((topic, share) :: shares) (o :: os) (calls ++ later)

theorem Parts.congr {shares : List (Topic × List Message)} {os : List (Option Outcome)}
    (h : Parts env account w w' shares os calls)
    (hw : ∀ t ∈ shares.map Prod.fst, v.place ⟨account, t⟩ = w.place ⟨account, t⟩)
    (hw' : ∀ t ∈ shares.map Prod.fst, v'.place ⟨account, t⟩ = w'.place ⟨account, t⟩) :
    Parts env account v v' shares os calls := by
  induction h with
  | nil => exact .nil
  | cons hpart _ ih =>
    rw [List.map_cons, List.forall_mem_cons] at hw hw'
    exact .cons (hpart.congr hw.1 hw'.1) (ih hw.2 hw'.2)

/-- What the shares of some topics leave alone in the rows and on the device. -/
structure Elsewhere (account : String) (topics : List Topic) (w w' : Work) : Prop where
  slots : ∀ key : CopyKey, (key.account = account → key.topic ∉ topics) →
    w'.device.copies.find? key = w.device.copies.find? key
  rows : ∀ k : RowKey, (∀ t ∈ topics, k ≠ ⟨account, t.tag⟩) →
    w'.tx.database.rowAt? k = w.tx.database.rowAt? k
  database : w'.device.database = w.device.database
  asked : w'.device.asked = w.device.asked

theorem Elsewhere.place {topics : List Topic} (h : Elsewhere account topics w w') {t : Topic}
    (ht : t ∉ topics) : w'.place ⟨account, t⟩ = w.place ⟨account, t⟩ := by
  refine Prod.ext (h.slots _ fun _ => ht) (h.rows _ fun t' ht' heq => ht ?_)
  obtain rfl := Topic.tag_inj (congrArg RowKey.tag heq)
  exact ht'

theorem takeShare_part {topic : Topic} (h : takeShare env ⟨account, topic⟩ share w = (.ok o, w')) :
    ∃ calls, Part env ⟨account, topic⟩ share w w' o calls ∧
      w'.device.applied = w.device.applied ++ calls ∧ w'.tx.after = w.tx.after ∧
      Elsewhere account [topic] w w' := by
  obtain ⟨undo, ⟨hslot, rfl, rfl⟩ | ⟨r, o', calls, r', db, hslot, htook, rfl, rfl⟩⟩ :=
    takeShare_eq_ok h
  · exact ⟨[], .missing hslot rfl, (List.append_nil _).symm, rfl,
      fun _ _ => rfl, fun _ _ => rfl, rfl, rfl⟩
  · refine ⟨calls, .took r r' w.tx.database db o' calls htook (Prod.ext hslot rfl) (Prod.ext ?_ rfl),
      rfl, rfl, fun key hkey => ?_, fun k hk => ?_, rfl, rfl⟩
    · exact SortedMap.find?_insert_self _ _ _
    · refine SortedMap.find?_insert_of_ne fun heq => ?_
      subst heq
      exact hkey rfl (List.mem_singleton_self topic)
    · exact htook.rowAt?_of_ne (hk topic (List.mem_singleton_self topic))

/-- Each share is taken as if it were the only one, since none is of the topic of another. -/
theorem each_takeShare : ∀ {shares : List (Topic × List Message)} {os : List (Option Outcome)}
    {w : Work}, (shares.map Prod.fst).Nodup →
    each (fun s => takeShare env ⟨account, s.1⟩ s.2) shares w = (.ok os, w') →
    ∃ calls, Parts env account w w' shares os calls ∧
      w'.device.applied = w.device.applied ++ calls ∧ w'.tx.after = w.tx.after ∧
      Elsewhere account (shares.map Prod.fst) w w'
  | [], os, w, _, h => by
    obtain ⟨rfl, rfl⟩ := pure_eq_ok h
    exact ⟨[], .nil, (List.append_nil _).symm, rfl, fun _ _ => rfl, fun _ _ => rfl, rfl, rfl⟩
  | (topic, share) :: shares, os, w, hn, h => by
    obtain ⟨o, rest, w₁, hone, hrest, rfl⟩ := each_cons_eq_ok h
    obtain ⟨hnot, hn⟩ := List.nodup_cons.1 hn
    obtain ⟨calls, hpart, happlied, hafter, helse⟩ := takeShare_part hone
    obtain ⟨later, hparts, happlied', hafter', helse'⟩ := each_takeShare hn hrest
    refine ⟨calls ++ later, .cons (hpart.congr rfl (helse'.place hnot)) ?_, ?_,
      hafter'.trans hafter, ?_⟩
    · refine hparts.congr (fun t ht => (helse.place fun hmem => hnot ?_).symm) fun _ _ => rfl
      rwa [← List.mem_singleton.1 hmem]
    · rw [happlied', happlied, List.append_assoc]
    · refine ⟨fun key hkey => ?_, fun k hk => ?_, helse'.database.trans helse.database,
        helse'.asked.trans helse.asked⟩
      · simp only [List.map_cons, List.mem_cons, not_or] at hkey
        rw [helse'.slots key fun hacc => (hkey hacc).2, helse.slots key]
        exact fun hacc hmem => (hkey hacc).1 (List.mem_singleton.1 hmem)
      · rw [List.map_cons, List.forall_mem_cons] at hk
        rw [helse'.rows k hk.2, helse.rows k]
        exact fun t ht => List.mem_singleton.1 ht ▸ hk.1

/-- Takes shares, one after the other. -/
def takeAll (env : Env) (account : String) (shares : List (Topic × List Message)) :
    Write (List (Option Outcome)) :=
  each (fun s => takeShare env ⟨account, s.1⟩ s.2) shares

/-- What is to follow a commit, with the sync that a batch asks for. -/
def asked (env : Env) (account : String) (outcomes : List Outcome) (after : Hooks Signal) :
    Hooks Signal :=
  if outcomes.any (·.needsPush) then
    (after.register (Write.signalName account) ⟨account, env.listener⟩).2
  else after

/-- What follows when all shares are taken. -/
def conclude (env : Env) (account : String) (outcomes : List Outcome) : Write (List Outcome) := do
  if outcomes.any (·.needsPush) then Write.schedule env.listener account
  Write.changeStats fun s => outcomes.foldl Stats.take s
  return outcomes

theorem conclude_run (env : Env) (account : String) (outcomes : List Outcome) (w : Work) :
    conclude env account outcomes w = (.ok outcomes,
      { device := { w.device with stats := outcomes.foldl Stats.take w.device.stats },
        tx := { w.tx with after := asked env account outcomes w.tx.after } }) := by
  unfold conclude asked
  split <;> rfl

theorem receive_noThread (haccount : account = "") (messages : List Message) (w : Work) :
    Write.receive env account messages w = (.error (.failed .noThread), w) := by
  unfold Write.receive
  rw [if_pos haccount]
  rfl

theorem receive_eq (haccount : account ≠ "") (messages : List Message) :
    Write.receive env account messages = takeAll env account (shares messages) >>= fun os =>
      conclude env account (os.filterMap id) := by
  unfold Write.receive
  rw [if_neg haccount]
  rfl

/-- What a whole batch comes to, before anybody looks at single topics. -/
structure Taken (env : Env) (account : String) (messages : List Message) (w w' : Work)
    (os : List (Option Outcome)) (calls : List Applied) : Prop where
  named : account ≠ ""
  parts : Parts env account w w' (shares messages) os calls
  applied : w'.device.applied = w.device.applied ++ calls
  elsewhere : Elsewhere account ((shares messages).map Prod.fst) w w'
  after : w'.tx.after = if (os.filterMap id).any (·.needsPush) then
    (w.tx.after.register (Write.signalName account) ⟨account, env.listener⟩).2 else w.tx.after

theorem taken_of_ok {messages : List Message} {outcomes : List Outcome}
    (h : Write.receive env account messages w = (.ok outcomes, w')) :
    ∃ os calls, outcomes = os.filterMap id ∧ Taken env account messages w w' os calls := by
  by_cases haccount : account = ""
  · rw [receive_noThread haccount] at h
    cases h
  rw [receive_eq haccount] at h
  obtain ⟨os, w₁, hshares, h⟩ := bind_eq_ok h
  obtain ⟨calls, hparts, happlied, hafter, helse⟩ := each_takeShare (nodup_shares messages) hshares
  rw [conclude_run, hafter] at h
  obtain ⟨hres, rfl⟩ := Prod.ext_iff.1 h
  exact ⟨os, calls, (Except.ok.inj hres).symm, haccount,
    hparts.congr (fun _ _ => rfl) fun _ _ => rfl, happlied,
    ⟨helse.slots, helse.rows, helse.database, helse.asked⟩, rfl⟩

/-! ### What is reported -/

variable {messages : List Message}

/-- When the newest of a topic's accepted messages was sent; the present if none of them says so. -/
def newest (env : Env) (messages : List Message) (t : Topic) (accepted : List String) : Int :=
  (messages.filterMap fun m =>
    if m.topic = t ∧ ∃ hash ∈ accepted, m.hash = some hash then m.time else none).max?.getD env.now

theorem sorted_perm (messages : List Message) : (sorted messages).Perm messages :=
  List.mergeSort_perm _ _

theorem length_batch_share (messages : List Message) (t : Topic) :
    (batch (Receive.share messages t)).length =
      messages.countP fun m => m.topic = t ∧ m.hash.isSome := by
  have hbatch : ∀ l : List Message, (batch l).length = l.countP (·.hash.isSome) := by
    intro l
    rw [batch, List.length_filterMap_eq_countP]
    exact List.countP_congr fun m _ => by simp
  rw [hbatch, Receive.share, List.countP_filter, ← (sorted_perm messages).countP_eq]
  exact List.countP_congr fun m _ => by simp [and_comm]

/-- The largest member of a list depends on which members others are below. -/
theorem max?_congr {l l' : List Int} (h : ∀ a ∈ l, ∃ b ∈ l', a ≤ b) (h' : ∀ b ∈ l', ∃ a ∈ l, b ≤ a) :
    l.max? = l'.max? := by
  cases hmax : l.max? with
  | none =>
    obtain rfl := List.max?_eq_none_iff.1 hmax
    cases l' with
    | nil => rfl
    | cons b _ => simpa using h' b List.mem_cons_self
  | some a =>
    obtain ⟨ha, hle⟩ := List.max?_eq_some_iff.1 hmax
    obtain ⟨b, hb, hab⟩ := h a ha
    refine (List.max?_eq_some_iff.2 ⟨?_, fun b' hb' => ?_⟩).symm
    · obtain ⟨a', ha', hba⟩ := h' b hb
      obtain rfl : a = b := le_antisymm hab (hba.trans (hle a' ha'))
      exact hb
    · obtain ⟨a', ha', hba⟩ := h' b' hb'
      exact hba.trans (hle a' ha')

/-- It does not matter that the newest message is looked for hash by hash. -/
theorem latest_share (env : Env) (messages : List Message) (t : Topic) (accepted : List String) :
    latest env (Receive.share messages t) accepted = newest env messages t accepted := by
  have hsent : ∀ m ∈ messages, ∀ hash ∈ accepted, ∀ time, m.topic = t → m.hash = some hash →
      m.time = some time → ∃ a, sentAt? (Receive.share messages t) hash = some a ∧ time ≤ a := by
    intro m hm hash _ time htopic hhash htime
    have hof : m ∈ Receive.share messages t :=
      List.mem_filter.2 ⟨(sorted_perm messages).mem_iff.2 hm, by simpa using htopic⟩
    have hin : time ∈ (Receive.share messages t).filterMap
        fun m => if m.hash = some hash then m.time else none :=
      List.mem_filterMap.2 ⟨m, hof, by rw [if_pos hhash, htime]⟩
    rw [sentAt?]
    cases hmax : ((Receive.share messages t).filterMap
        fun m => if m.hash = some hash then m.time else none).max? with
    | none =>
      rw [List.max?_eq_none_iff.1 hmax] at hin
      cases hin
    | some a => exact ⟨a, rfl, (List.max?_eq_some_iff.1 hmax).2 time hin⟩
  rw [latest, newest, max?_congr]
  · intro a ha
    obtain ⟨hash, hmem, hat⟩ := List.mem_filterMap.1 ha
    obtain ⟨hsent, -⟩ := List.max?_eq_some_iff.1 hat
    obtain ⟨m, hm, htime⟩ := List.mem_filterMap.1 hsent
    split at htime
    · rename_i hhash
      obtain ⟨hm, htopic⟩ := List.mem_filter.1 hm
      refine ⟨a, List.mem_filterMap.2 ⟨m, (sorted_perm messages).mem_iff.1 hm, ?_⟩, le_rfl⟩
      rwa [if_pos ⟨by simpa using htopic, hash, hmem, hhash⟩]
    · cases htime
  · intro b hb
    obtain ⟨m, hm, htime⟩ := List.mem_filterMap.1 hb
    split at htime
    · rename_i h
      obtain ⟨htopic, hash, hmem, hhash⟩ := h
      obtain ⟨a, hat, hle⟩ := hsent m hm hash hmem b htopic hhash htime
      exact ⟨a, List.mem_filterMap.2 ⟨hash, hmem, hat⟩, hle⟩
    · cases htime

/-- A merge of what a batch has for the topic of an outcome: it accepts the hashes that are reported,
and makes another of the copy. -/
def Merges (env : Env) (account : String) (messages : List Message) (w : Work) (o : Outcome)
    (r₁ : Replica) : Prop :=
  ∃ r, w.device.copies.find? ⟨account, o.topic⟩ = some (.ready r) ∧
    env.engine.merge (batch (Receive.share messages o.topic)) r = (.ok o.hashes, r₁)

/-- A handler is told of the merge that an outcome reports. -/
def Told (env : Env) (account : String) (messages : List Message) (w : Work) (o : Outcome)
    (call : Applied) : Prop :=
  ∃ r₁, Merges env account messages w o r₁ ∧
    call = callOf env ⟨account, o.topic⟩ r₁ (newest env messages o.topic o.hashes)

/-- What a batch that was taken reports of itself, whom it told, and what it wrote. -/
structure Report (env : Env) (account : String) (messages : List Message) (w : Work)
    (outcomes : List Outcome) (w' : Work) : Prop where
  /-- There is one outcome for each loaded topic of the batch, by rank. -/
  topics : outcomes.map (·.topic) = Topic.byRank.filter fun t =>
    (w.device.copies.find? ⟨account, t⟩).isSome ∧ ∃ m ∈ messages, m.topic = t
  received : ∀ o ∈ outcomes,
    o.received = messages.countP fun m => m.topic = o.topic ∧ m.hash.isSome
  merged : ∀ o ∈ outcomes, ∃ r₁, Merges env account messages w o r₁
  /-- The handlers of topics with accepted messages are called once, in the order of the outcomes,
  with what the copy has after the merge. -/
  told : ∃ calls, w'.device.applied = w.device.applied ++ calls ∧
    List.Forall₂ (Told env account messages w) (outcomes.filter (·.hashes ≠ [])) calls
  latest : ∀ o ∈ outcomes, o.latest =
    if o.hashes = [] then none else some (newest env messages o.topic o.hashes)
  dated : ∀ o ∈ outcomes, o.hashes ≠ [] → ∀ row,
    w'.tx.database.rowAt? ⟨account, o.topic.tag⟩ = some row → o.latest = some row.time
  rows : ∀ k : RowKey, (∀ o ∈ outcomes, o.hashes ≠ [] → k ≠ ⟨account, o.topic.tag⟩) →
    w'.tx.database.rowAt? k = w.tx.database.rowAt? k

section Parts

variable {shares : List (Topic × List Message)} {os : List (Option Outcome)}

theorem map_fst_shares (messages : List Message) : (Receive.shares messages).map Prod.fst =
    Topic.byRank.filter fun t => ∃ m ∈ messages, m.topic = t := by
  rw [Receive.shares, List.map_filterMap, ← List.filterMap_eq_filter]
  refine List.filterMap_congr fun t _ => ?_
  have hmem : ∀ m, m ∈ (sorted messages).filter (·.topic = t) ↔ m ∈ messages ∧ m.topic = t :=
    fun _ => mem_share
  split
  · rename_i hnil
    have hnone : ¬ ∃ m ∈ messages, m.topic = t := by
      rintro ⟨m, hm⟩
      simpa [hnil] using (hmem m).2 hm
    simp [Option.guard, hnone]
  · rename_i hne
    obtain ⟨m, hm⟩ := List.exists_mem_of_ne_nil _ hne
    have hsome : ∃ m ∈ messages, m.topic = t := ⟨m, (hmem m).1 hm⟩
    simp [Option.guard, hsome]

theorem Parts.topics (h : Parts env account w w' shares os calls) :
    (os.filterMap id).map (·.topic) =
      (shares.map Prod.fst).filter fun t => (w.device.copies.find? ⟨account, t⟩).isSome := by
  induction h with
  | nil => rfl
  | cons hpart _ ih =>
    cases hpart with
    | missing hslot =>
      rw [List.filterMap_cons_none rfl, ih, List.map_cons, List.filter_cons_of_neg (by simp [hslot])]
    | took r r' db db' o calls htook hbefore =>
      have hslot := congrArg Prod.fst hbefore
      rw [List.filterMap_cons_some (f := id) (b := o) rfl, List.map_cons, ih, List.map_cons,
        List.filter_cons_of_pos, htook.topic]
      exact Option.isSome_iff_exists.2 ⟨_, hslot⟩

theorem Parts.mem (h : Parts env account w w' shares os calls) {o : Outcome}
    (ho : o ∈ os.filterMap id) :
    ∃ share calls, (o.topic, share) ∈ shares ∧
      Part env ⟨account, o.topic⟩ share w w' (some o) calls := by
  induction h with
  | nil => cases ho
  | cons hpart _ ih =>
    cases hpart with
    | missing =>
      obtain ⟨share, calls, hmem, hpart⟩ := ih ho
      exact ⟨share, calls, List.mem_cons_of_mem _ hmem, hpart⟩
    | took r r' db db' o' calls htook hbefore hafter =>
      rw [List.filterMap_cons_some (f := id) (b := o') rfl, List.mem_cons] at ho
      rcases ho with rfl | ho
      · obtain rfl := htook.topic
        exact ⟨_, _, List.mem_cons_self, .took r r' db db' _ _ htook hbefore hafter⟩
      · obtain ⟨share, calls, hmem, hpart⟩ := ih ho
        exact ⟨share, calls, List.mem_cons_of_mem _ hmem, hpart⟩

theorem Parts.part (h : Parts env account w w' shares os calls) {t : Topic} {share : List Message}
    (ht : (t, share) ∈ shares) :
    ∃ o calls, o ∈ os ∧ Part env ⟨account, t⟩ share w w' o calls := by
  induction h with
  | nil => cases ht
  | cons hpart _ ih =>
    rcases List.mem_cons.1 ht with heq | ht
    · obtain ⟨rfl, rfl⟩ := Prod.mk.inj heq
      exact ⟨_, _, List.mem_cons_self, hpart⟩
    · obtain ⟨o, calls, ho, hpart⟩ := ih ht
      exact ⟨o, calls, List.mem_cons_of_mem _ ho, hpart⟩

/-- The calls of the handlers are those of the outcomes with accepted messages. -/
theorem Parts.told (h : Parts env account w w' shares os calls)
    (hshares : ∀ s ∈ shares, s.2 = Receive.share messages s.1) :
    List.Forall₂ (Told env account messages w) ((os.filterMap id).filter (·.hashes ≠ [])) calls := by
  induction h with
  | nil => exact .nil
  | cons hpart _ ih =>
    rw [List.forall_mem_cons] at hshares
    have hshare := hshares.1
    dsimp only at hshare
    subst hshare
    have hlater := ih hshares.2
    cases hpart with
    | missing =>
      rw [List.filterMap_cons_none rfl]
      exact hlater
    | took r r' db db' o' calls htook hbefore =>
      rw [List.filterMap_cons_some (f := id) (b := o') rfl]
      cases htook with
      | refused =>
        rw [List.filter_cons_of_neg (by simp)]
        exact hlater
      | accepted hashes r₁ _ _ hmerge hnone =>
        rw [List.filter_cons_of_pos (by simpa using hnone)]
        refine .cons ⟨r₁, ⟨r, congrArg Prod.fst hbefore, hmerge⟩, ?_⟩ hlater
        rw [latest_share]

end Parts

/-- A call that gives a result reports of its messages topic by topic. -/
theorem report_of_ok {outcomes : List Outcome}
    (h : Write.receive env account messages w = (.ok outcomes, w')) :
    Report env account messages w outcomes w' := by
  obtain ⟨os, calls, rfl, htaken⟩ := taken_of_ok h
  have hshares : ∀ s ∈ shares messages, s.2 = Receive.share messages s.1 := fun s hs =>
    (mem_shares.1 hs).1.symm
  -- Each outcome is that of a share, which is all that the batch has for the topic.
  have hone : ∀ o ∈ os.filterMap id, ∃ calls r r' db db',
      Took env ⟨account, o.topic⟩ (Receive.share messages o.topic) r db o calls r' db' ∧
        w.device.copies.find? ⟨account, o.topic⟩ = some (.ready r) ∧
        w'.tx.database.rowAt? ⟨account, o.topic.tag⟩ = db'.rowAt? ⟨account, o.topic.tag⟩ := by
    intro o ho
    obtain ⟨share, calls, hmem, hpart⟩ := htaken.parts.mem ho
    have hshare : share = Receive.share messages o.topic := hshares _ hmem
    subst hshare
    cases hpart with
    | took r r' db db' _ _ htook hbefore hafter =>
      exact ⟨calls, r, r', db, db', htook, congrArg Prod.fst hbefore, congrArg Prod.snd hafter⟩
  refine ⟨?_, fun o ho => ?_, fun o ho => ?_, ⟨calls, htaken.applied, htaken.parts.told hshares⟩,
    fun o ho => ?_, fun o ho hnone row hrow => ?_, fun k hk => ?_⟩
  · rw [htaken.parts.topics, map_fst_shares, List.filter_filter]
    exact List.filter_congr fun t _ => by simp
  · obtain ⟨_, _, _, _, _, htook, -⟩ := hone o ho
    rw [htook.received, length_batch_share]
  · obtain ⟨_, r, _, _, _, htook, hslot, -⟩ := hone o ho
    obtain ⟨r₁, hmerge⟩ := htook.merge
    exact ⟨r₁, r, hslot, hmerge⟩
  · obtain ⟨_, _, _, _, _, htook, -⟩ := hone o ho
    rw [htook.latest, latest_share]
  · obtain ⟨_, _, _, _, _, htook, -, hafter⟩ := hone o ho
    exact htook.dated hnone (hafter ▸ hrow)
  · by_cases hkey : ∃ t ∈ (shares messages).map Prod.fst, k = ⟨account, t.tag⟩
    · obtain ⟨t, ht, rfl⟩ := hkey
      obtain ⟨⟨t, share⟩, hmem, rfl⟩ := List.mem_map.1 ht
      obtain ⟨o, calls, ho, hpart⟩ := htaken.parts.part hmem
      cases hpart with
      | missing _ hplace => exact congrArg Prod.snd hplace
      | took r r' db db' o calls htook hbefore hafter =>
        have hnone : o.hashes = [] := by
          by_contra hnone
          exact hk o (List.mem_filterMap.2 ⟨some o, ho, rfl⟩) hnone (by rw [htook.topic])
        have hrow := congrArg Prod.snd hafter
        rw [htook.database_of_refused hnone] at hrow
        exact hrow.trans (congrArg Prod.snd hbefore).symm
    · exact htaken.elsewhere.rows k fun t ht heq => hkey ⟨t, ht, heq⟩

end Receive

/-- A cipher that hides nothing, for runs that are small enough to follow. -/
def Cipher.clear : Cipher where
  lock _ _ nonce text := nonce ++ text ++ List.replicate tagLength 0
  unlock _ _ bs := .ok ((bs.drop nonceLength).take (bs.length - overhead))

/-- A payload with one entry. -/
def Cipher.clearPayload (t : Topic) (seq : Int) (value : Bytes) : Bytes :=
  clear.lock default t.title (List.replicate nonceLength 0)
    (Generation.layout.put ⟨t, seq, (∅ : Entries).insert "a" ⟨some value, seq⟩⟩)

/-- A batch of three topics, of which two are loaded: a message of the contacts cannot be read, and
another has no hash; the only message of the groups does not say when it was sent. -/
theorem Receive.report_of_ok_mixed :
    let env : Env := { engine := .plain .clear, identity := some "05", now := 900 }
    let d : Device :=
      { copies := ((∅ : Copies).insert ⟨"05", .contacts⟩ (.ready (.fresh .contacts default))).insert
          ⟨"05", .userGroups⟩ (.ready (.fresh .userGroups default)) }
    let messages : List Message :=
      [⟨.userGroups, 4, Cipher.clearPayload .userGroups 4 [4], none, some "g4"⟩,
        ⟨.contacts, 2, Cipher.clearPayload .contacts 2 [2], some 200, some "c2"⟩,
        ⟨.contacts, 1, [7], some 300, some "c1"⟩,
        ⟨.contacts, 3, Cipher.clearPayload .contacts 3 [3], some 400, none⟩,
        ⟨.userProfile, 1, Cipher.clearPayload .userProfile 1 [1], some 100, some "p1"⟩]
    ∃ outcomes w', Write.receive env "05" messages d.start = (.ok outcomes, w') ∧
      outcomes.map (fun o => (o.topic, o.received, o.hashes)) =
        [(.contacts, 2, ["c2"]), (.userGroups, 1, ["g4"])] ∧
      w'.device.applied.map (fun call => (call.topic, call.entries, call.update.latest)) =
        [(.contacts, [("a", [2])], 200), (.userGroups, [("a", [4])], 900)] ∧
      Report env "05" messages d.start outcomes w' := by
  intro env d messages
  have hsorted : sorted messages =
      [⟨.contacts, 1, [7], some 300, some "c1"⟩,
        ⟨.userProfile, 1, Cipher.clearPayload .userProfile 1 [1], some 100, some "p1"⟩,
        ⟨.contacts, 2, Cipher.clearPayload .contacts 2 [2], some 200, some "c2"⟩,
        ⟨.contacts, 3, Cipher.clearPayload .contacts 3 [3], some 400, none⟩,
        ⟨.userGroups, 4, Cipher.clearPayload .userGroups 4 [4], none, some "g4"⟩] := by
    simp [sorted, messages, List.mergeSort, List.MergeSort.Internal.splitInTwo]
  have hanswer : (Write.receive env "05" messages d.start).1.toOption.map
      (List.map fun o => (o.topic, o.received, o.hashes)) =
      some [(.contacts, 2, ["c2"]), (.userGroups, 1, ["g4"])] := by
    unfold Write.receive shares
    rw [hsorted]
    decide +kernel
  have hcalls : (Write.receive env "05" messages d.start).2.device.applied.map
      (fun call => (call.topic, call.entries, call.update.latest)) =
      [(.contacts, [("a", [2])], 200), (.userGroups, [("a", [4])], 900)] := by
    unfold Write.receive shares
    rw [hsorted]
    decide +kernel
  rcases hrun : Write.receive env "05" messages d.start with ⟨t | outcomes, w'⟩ <;>
    rw [hrun] at hanswer hcalls
  · cases hanswer
  · exact ⟨outcomes, w', rfl, Option.some.inj hanswer, hcalls, report_of_ok hrun⟩

end AccountSync
