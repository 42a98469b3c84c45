import AccountSync.Proofs.Device.Collecting
import AccountSync.Proofs.Device.Confirmation
import AccountSync.Proofs.Device.Removal
/-!
A copy with changes to publish has a row. The copies of the device's own account are looked through
one and all when messages are collected, but of any other account those with a row alone; so what is
to be published must be written down. Every call of a write that commits sees to that: a copy that has
got changes is marked as unsaved (`Use.Marked`), and is saved before the call is over
(`Use.Recorded`). What is true of a whole device on that account is in `Held.Findable`.
-/

namespace AccountSync

open Step

variable {c : Cipher} {env : Env} {own : String}

/-! ### Rows -/

namespace Database

/-- Rows are added or replaced, and none is lost. -/
structure Grows (db db' : Database) : Prop where
  fetches : ∀ account, db.Fetches account → db'.Fetches account
  rows : ∀ key, (db.data? key).isSome → (db'.data? key).isSome

variable {db db' db'' : Database} {t : DumpTable}

theorem Grows.refl (db : Database) : db.Grows db := ⟨fun _ => id, fun _ => id⟩

theorem Grows.trans (h : db.Grows db') (h' : db'.Grows db'') : db.Grows db'' :=
  ⟨fun account hf => h'.fetches account (h.fetches account hf),
    fun key hr => h'.rows key (h.rows key hr)⟩

theorem grows_insert (ht : db.table = some t) (key : CopyKey) (row : RowData) :
    db.Grows (db.withRows t (t.rows.insert ⟨key.account, key.topic.tag⟩ row)) := by
  refine ⟨fun account hf => hf.insert ht key row, fun key' hr => ?_⟩
  rw [data?_insert ht]
  split
  · rfl
  · exact hr

theorem grows_upsert {d : Dump} (h : db.upsert d = .ok db') :
    db.Grows db' ∧ (db'.data? ⟨d.account, d.topic⟩).isSome := by
  unfold upsert at h
  cases ht : db.timedTable with
  | error f =>
    rw [ht] at h
    cases h
  | ok t =>
    rw [ht] at h
    obtain rfl := Except.ok.inj h
    have hdb := (timedTable_ok_iff.1 ht).1
    refine ⟨grows_insert hdb ⟨d.account, d.topic⟩ _, ?_⟩
    rw [data?_insert hdb ⟨d.account, d.topic⟩, if_pos rfl]
    rfl

theorem grows_touch {topic : Topic} {account : String} {time : Int} {n : Nat}
    (h : db.touch topic account time = .ok (n, db')) : db.Grows db' := by
  unfold touch at h
  cases ht : db.timedTable with
  | error f =>
    rw [ht] at h
    cases h
  | ok t =>
    simp only [ht, bind, Except.bind] at h
    split at h
    · obtain rfl := congrArg Prod.snd (Except.ok.inj h)
      exact .refl db
    · obtain rfl := congrArg Prod.snd (Except.ok.inj h)
      exact grows_insert (timedTable_ok_iff.1 ht).1 ⟨account, topic⟩ _

/-- To remove an account leaves the rows of the others. -/
theorem removeAll_ok {account : String} {n : Nat} (h : db.removeAll account = .ok (n, db')) :
    (∀ account', db.Fetches account' → db'.Fetches account') ∧
      ∀ key, key.account ≠ account → db'.data? key = db.data? key := by
  unfold removeAll anyTable at h
  cases ht : db.table with
  | none =>
    rw [ht] at h
    cases h
  | some t =>
    rw [ht] at h
    obtain rfl := congrArg Prod.snd (Except.ok.inj h)
    have hcompare : ∀ a b : RowKey, compare a b = .eq →
        (a.account != account) = (b.account != account) := by
      intro a b hab
      rw [SortedMap.compare_eq_iff.1 hab]
    have hrow : ∀ key, (t.rows.filter fun k _ => k.account != account).find? key =
        if key.account != account then t.rows.find? key else none := fun key =>
      SortedMap.lookup_filter_key (fun k : RowKey => k.account != account) hcompare key t.rows.toList
    constructor
    · rintro account' ⟨t', ht', htimed, htags⟩
      obtain rfl : t' = t := Option.some.inj (ht'.symm.trans ht)
      refine ⟨_, rfl, htimed, fun tag row hfound => ?_⟩
      rw [hrow] at hfound
      split at hfound
      · exact htags tag row hfound
      · cases hfound
    · intro key hkey
      have hne : (key.account != account) = true := bne_iff_ne.2 hkey
      simp only [data?, row?, withRows, ht, Option.bind_some, hrow, hne, if_true]

end Database

/-! ### Engines that may fail -/

/-- The engine works as `Replica` says, or it fails; one that fails to push, to take an answer or to
save leaves the copy alone. -/
structure Engine.Fallible (c : Cipher) (e : Engine) : Prop extends e.Upright where
  start : ∀ {topic secret dump r}, e.start topic secret dump = .ok r →
    ∃ limit, (Engine.plain c limit).start topic secret dump = .ok r
  merge : ∀ {batch r accepted r'}, e.merge batch r = (.ok accepted, r') →
    r.merge c batch = (accepted, r')
  push : e.Pushes c

theorem Engine.fallible_plain (c : Cipher) (limit : Nat) : (plain c limit).Fallible c where
  toUpright := upright_plain c limit
  start h := ⟨limit, h⟩
  merge h := by
    obtain ⟨haccepted, hr⟩ := Prod.ext_iff.1 h
    exact Prod.ext (Except.ok.inj haccepted) hr
  push := pushes_plain c limit

/-- The surroundings of a call: the engine may fail, and handlers may do anything to the copies of the
device's own account; those of an account that merely was its own for a time say what they change. -/
structure Env.Serves (c : Cipher) (own : String) (env : Env) : Prop where
  engine : env.engine.Fallible c
  honest : ∀ account, env.identity = some account → account = own ∨
    ∀ topic, (env.handler topic).Honest

/-! ### Use of one copy -/

namespace Use

variable {α β : Type} {key : CopyKey} {s₀ s : Replica × Work}

/-- A copy in use that has got changes to publish is marked as unsaved, or has a row; no other copy
is touched and no row is lost. Copies of the device's own account need none. -/
structure Marked (own : String) (key : CopyKey) (s₀ s : Replica × Work) : Prop where
  copies : s.2.device.copies = s₀.2.device.copies
  database : s₀.2.tx.database.Grows s.2.tx.database
  owes : key.account ≠ own → s.1.needsPush = true →
    s₀.1.needsPush = true ∨ s.1.unsaved = true ∨ (s.2.tx.database.data? key).isSome

/-- A copy in use that has got changes to publish has a row. -/
structure Recorded (own : String) (key : CopyKey) (s₀ s : Replica × Work) : Prop where
  copies : s.2.device.copies = s₀.2.device.copies
  database : s₀.2.tx.database.Grows s.2.tx.database
  owes : key.account ≠ own → s.1.needsPush = true →
    s₀.1.needsPush = true ∨ (s.2.tx.database.data? key).isSome

theorem Recorded.refl (s : Replica × Work) : Recorded own key s s :=
  ⟨rfl, .refl _, fun _ => .inl⟩

theorem Marked.recorded (h : Marked own key s₀ s) (hu : s.1.unsaved = false) :
    Recorded own key s₀ s := by
  refine ⟨h.copies, h.database, fun hkey hneeds => ?_⟩
  rcases h.owes hkey hneeds with hbefore | hunsaved | hrow
  · exact .inl hbefore
  · rw [hu] at hunsaved
    cases hunsaved
  · exact .inr hrow

/-- A use in which every copy that gets changes to publish gets a row. -/
def Records (own : String) (key : CopyKey) (x : Use α) : Prop :=
  ∀ s₀, Gives (· = s₀) x fun _ s => Recorded own key s₀ s

/-- What comes after, without a look at copies or rows, changes nothing about it. -/
theorem gives_silent {P : Replica × Work → Prop} {x : Use α}
    (hP : ∀ {s s'}, P s → held s' = held s → P s') (hx : Silent held x) :
    Gives P x fun _ => P := by
  intro s a s' hs hrun
  have hleft := hx s
  simp only [leaves, hrun, Option.some.injEq] at hleft
  exact hP hs hleft

theorem Marked.congr {s' : Replica × Work} (h : Marked own key s₀ s) (hs : held s' = held s) :
    Marked own key s₀ s' := by
  simp only [held, Work.held, Prod.mk.injEq, Held.mk.injEq] at hs
  obtain ⟨hr, hcopies, hdb⟩ := hs
  exact ⟨hcopies.trans h.copies, hdb ▸ h.database, hr ▸ hdb ▸ h.owes⟩

theorem Recorded.congr {s' : Replica × Work} (h : Recorded own key s₀ s) (hs : held s' = held s) :
    Recorded own key s₀ s' := by
  simp only [held, Work.held, Prod.mk.injEq, Held.mk.injEq] at hs
  obtain ⟨hr, hcopies, hdb⟩ := hs
  exact ⟨hcopies.trans h.copies, hdb ▸ h.database, hr ▸ hdb ▸ h.owes⟩

theorem guarded_gives {P : Replica × Work → Prop} {Q : α → Replica × Work → Prop} {topic : Topic}
    {operation : String} {f : Replica → Except Trouble α × Replica}
    (h : ∀ r w a r', P (r, w) → f r = (.ok a, r') → Q a (r', w)) :
    Gives P (guarded topic operation f) Q := by
  rintro ⟨r, w⟩ a s' hs hrun
  rcases hf : f r with ⟨t | b, r'⟩
  · rw [guarded_of_error w hf] at hrun
    cases hrun
  · rw [guarded_of_ok w hf] at hrun
    obtain ⟨ha, rfl⟩ := Prod.ext_iff.1 hrun
    exact h r w a r' hs (hf.trans (congrArg (·, r') ha))

theorem dump?_of_saved {r : Replica} (hu : r.unsaved = false) (env : Env) (key : CopyKey)
    (time : Int) (w : Work) : dump? env key time (r, w) = (.ok none, (r, w)) := by
  have hcopy : copy (r, w) = (.ok r, (r, w)) := rfl
  rw [dump?, bind_run_ok hcopy, hu]
  rfl

theorem dump?_of_unsaved {r : Replica} (hu : r.unsaved = true) (env : Env) (key : CopyKey)
    (time : Int) (w : Work) : dump? env key time (r, w) =
      (guarded key.topic "dump" env.engine.save >>= fun data =>
        pure (some ⟨key.topic, key.account, data, time⟩)) (r, w) := by
  have hcopy : copy (r, w) = (.ok r, (r, w)) := rfl
  rw [dump?, bind_run_ok hcopy, hu]
  rfl

/-- A row that is stored within a use. -/
theorem outside_store_gives {d : Dump} {r : Replica} {w : Work} :
    Gives (· = (r, w)) (outside (Write.store d)) fun _ s => s.1 = r ∧
      s.2.device.copies = w.device.copies ∧ w.tx.database.Grows s.2.tx.database ∧
      (s.2.tx.database.data? ⟨d.account, d.topic⟩).isSome := by
  rintro s a s' rfl hrun
  cases hup : w.tx.database.upsert d with
  | error f =>
    rw [outside_run (Write.store_of_error hup)] at hrun
    cases hrun
  | ok db =>
    rw [outside_run (Write.store_of_ok hup)] at hrun
    obtain rfl := congrArg Prod.snd hrun
    exact ⟨rfl, rfl, Database.grows_upsert hup⟩

/-- A marked copy is saved, and has a row then. -/
theorem store?_gives (he : env.engine.Fallible c) (key : CopyKey) (time : Int) :
    Gives (Marked own key s₀) (store? env key time) fun _ => Recorded own key s₀ := by
  rintro ⟨r, w⟩ stored s' hs hrun
  cases hu : r.unsaved with
  | false =>
    rw [store?, bind_run_ok (dump?_of_saved hu env key time w)] at hrun
    obtain rfl : (r, w) = s' := congrArg Prod.snd hrun
    exact hs.recorded hu
  | true =>
    have hdump := dump?_of_unsaved hu env key time w
    rcases he.save r with hsave | ⟨t, hsave⟩
    · rw [bind_run_ok (guarded_of_ok w hsave)] at hdump
      rw [store?, bind_run_ok hdump] at hrun
      have hstored := outside_store_gives.bind (Q := fun _ s => Recorded own key s₀ s)
        (fun _ => (Gives.pure true).conseq (fun _ h => h) fun _ s h => ?_)
        (r.dump.2, w) stored s' rfl hrun
      · exact hstored
      · obtain ⟨-, -, hcopies, hgrows, hrow⟩ := h
        exact ⟨hcopies.trans hs.copies, hs.database.trans hgrows, fun _ _ => .inr hrow⟩
    · rw [bind_run_error (guarded_of_error w hsave)] at hdump
      rw [store?, bind_run_error hdump] at hrun
      cases hrun

/-- A marked copy is saved; another had its changes before, and then the time of its row alone is
new. -/
theorem keep_gives (he : env.engine.Fallible c) (key : CopyKey) (latest : Int) :
    Gives (Marked own key s₀) (Receive.keep env key latest) fun _ => Recorded own key s₀ := by
  rintro ⟨r, w⟩ u s' hs hrun
  have hcopy : copy (r, w) = (.ok r, (r, w)) := rfl
  rw [Receive.keep, bind_run_ok hcopy] at hrun
  cases hu : r.unsaved with
  | true =>
    simp only [hu, if_true] at hrun
    exact ((store?_gives he key latest).map fun _ => ()) (r, w) u s' hs hrun
  | false =>
    simp only [hu, Bool.false_eq_true, if_false] at hrun
    cases htouch : w.tx.database.touch key.topic key.account latest with
    | error f =>
      rw [bind_run_error (outside_run (Write.rows_of_error htouch) r)] at hrun
      cases hrun
    | ok touched =>
      obtain ⟨n, db⟩ := touched
      rw [bind_run_ok (outside_run (Write.rows_of_ok htouch) r)] at hrun
      obtain rfl := congrArg Prod.snd hrun
      have hgrows : w.tx.database.Grows db := Database.grows_touch htouch
      have hrecorded := hs.recorded hu
      exact ⟨hs.copies, hs.database.trans hgrows, fun hkey hneeds =>
        (hrecorded.owes hkey hneeds).imp_right (hgrows.rows key)⟩

/-- What is recorded stays so while it is looked at, or while something else is done. -/
theorem recorded_silent {x : Use α} (hx : Silent held x) :
    Gives (Recorded own key s₀) x fun _ => Recorded own key s₀ :=
  gives_silent Recorded.congr hx

theorem tell_gives (key : CopyKey) (latest : Int) :
    Gives (Marked own key s₀) (Receive.tell env key latest) fun _ => Marked own key s₀ := by
  rintro ⟨r, w⟩ u s' hs hrun
  cases happly : (env.handler key.topic).apply r ⟨key.account, r.unsaved, latest⟩ with
  | error t =>
    obtain ⟨t', htell⟩ := Receive.tell_of_error w happly
    rw [htell] at hrun
    cases hrun
  | ok _ =>
    obtain ⟨w', htell, hheld⟩ := Receive.tell_of_ok w happly
    rw [htell] at hrun
    obtain rfl : (r, w') = s' := congrArg Prod.snd hrun
    exact hs.congr (congrArg (r, ·) hheld)

end Use

/-! ### Changes of a copy -/

/-- Changes that give a copy something to publish mark it. -/
theorem Replica.changeAll_marks (changes : List Change) {r : Replica}
    (h : (r.changeAll changes).2.needsPush = true) :
    r.needsPush = true ∨ (r.changeAll changes).2.unsaved = true := by
  by_cases hp : r.phase = .edited
  · exact .inl (by simp [needsPush, hp])
  · rcases changeAll_of_not_edited changes hp with hsame | hunsaved
    · rw [hsame] at h
      exact .inl h
    · exact .inr hunsaved

/-- A merge that gives a copy something to publish has accepted something, and marks it. -/
theorem Replica.merge_marks {batch : List (String × Bytes)} {r r' : Replica}
    {accepted : List String} (hmerge : r.merge c batch = (accepted, r'))
    (h : r'.needsPush = true) :
    r.needsPush = true ∨ r'.unsaved = true ∧ accepted ≠ [] := by
  by_cases hnone : accepted = []
  · have hrefused : (r.merge c batch).1 = [] := by rw [hmerge, hnone]
    obtain ⟨hphase, -⟩ := merge_of_none c hrefused
    rw [hmerge] at hphase
    exact .inl (by rwa [needsPush, hphase] at h)
  · have hcases := merge_eq_or_unsaved c r batch
    rw [hmerge] at hcases
    rcases hcases with hsame | hunsaved
    · obtain rfl : r' = r := hsame
      exact .inl h
    · exact .inr ⟨hunsaved, hnone⟩

namespace Use

variable {α β : Type} {key : CopyKey} {s₀ s : Replica × Work}

theorem merge_gives (he : env.engine.Fallible c) (own : String) (key : CopyKey)
    (batch : List (String × Bytes)) :
    Gives (· = s₀) (guarded key.topic "merge" (env.engine.merge batch)) fun accepted s =>
      Marked own key s₀ s ∧ (accepted = [] → Recorded own key s₀ s) := by
  refine guarded_gives fun r w accepted r' hs hrun => ?_
  subst hs
  have hmerge := he.merge hrun
  refine ⟨⟨rfl, .refl _, fun _ hneeds => ?_⟩, fun hnone => ⟨rfl, .refl _, fun _ hneeds => ?_⟩⟩
  · exact (Replica.merge_marks hmerge hneeds).imp_right fun h => .inl h.1
  · exact (Replica.merge_marks hmerge hneeds).imp_right fun h => absurd hnone h.2

theorem mergeShare_records (he : env.engine.Fallible c) (key : CopyKey) (share : List Message) :
    Records own key (Receive.mergeShare env key share) := by
  intro s₀
  refine (merge_gives he own key (Receive.batch share)).bind fun accepted => ?_
  by_cases hnone : accepted = []
  · simp only [hnone, if_true]
    exact (recorded_silent (copy_silent.bind fun _ => Silent.pure _)).conseq
      (fun s h => h.2 trivial) fun _ _ h => h
  · simp only [hnone, if_false]
    refine Gives.bind (R := fun _ => Marked own key s₀) ?_ fun _ => ?_
    · exact (gives_silent Marked.congr copy_silent).conseq (fun s h => h.1) fun _ _ h => h
    · refine (tell_gives key _).bind fun _ => (keep_gives he key _).bind fun _ => ?_
      exact recorded_silent (copy_silent.bind fun _ => Silent.pure _)

/-- A copy that is edited, and saved if it is marked. -/
theorem edit_records (he : env.engine.Fallible c) (key : CopyKey) (time : Int)
    {body : Replica → α × Replica} (hbody : ∀ r, ∃ changes, (body r).2 = (r.changeAll changes).2)
    {f : α → Bool → Use β} (hf : ∀ a stored, Silent held (f a stored)) :
    Records own key (onCopy body >>= fun a => store? env key time >>= f a) := by
  intro s₀
  refine Gives.bind (R := fun _ => Marked own key s₀) ?_ fun a => ?_
  · rintro ⟨r, w⟩ a s' rfl hrun
    obtain rfl : ((body r).2, w) = s' := congrArg Prod.snd hrun
    obtain ⟨changes, hchanges⟩ := hbody r
    refine ⟨rfl, .refl _, fun _ hneeds => ?_⟩
    simp only [hchanges] at hneeds ⊢
    exact (Replica.changeAll_marks changes hneeds).imp_right .inl
  · exact (store?_gives he key time).bind fun stored => recorded_silent (hf a stored)

/-- A copy that a handler changes, and that is saved if it is marked. Only of the device's own
account it may be changed in any way. -/
theorem follow_records (he : env.engine.Fallible c) {key : CopyKey} (time : Int) {change : Change}
    (hhonest : key.account = own ∨ (env.handler key.topic).Honest) {f : Bool → Bool → Use β}
    (hf : ∀ changed saved, Silent held (f changed saved)) :
    Records own key (do
      let changed ← call ((env.handler key.topic).applyLocal change)
      let saved ← if changed then store? env key time else pure false
      f changed saved) := by
  intro s₀
  refine Gives.bind (R := fun changed s =>
    Marked own key s₀ s ∧ (changed = false → Recorded own key s₀ s)) ?_ fun changed => ?_
  · rintro ⟨r, w⟩ changed s' rfl hrun
    rcases happly : (env.handler key.topic).applyLocal change r with ⟨t | changed', r'⟩
    · simp only [call, happly] at hrun
      cases hrun
    · simp only [call, happly] at hrun
      obtain ⟨hchanged, rfl⟩ := Prod.ext_iff.1 hrun
      obtain rfl := Except.ok.inj hchanged
      rcases hhonest with hown | hhonest
      · exact ⟨⟨rfl, .refl _, fun h => absurd hown h⟩,
          fun _ => ⟨rfl, .refl _, fun h => absurd hown h⟩⟩
      · obtain ⟨⟨changes, rfl⟩, hsame⟩ := hhonest change r changed' r' happly
        refine ⟨⟨rfl, .refl _, fun _ hneeds => ?_⟩, fun hfalse => ?_⟩
        · exact (Replica.changeAll_marks changes hneeds).imp_right .inl
        · rw [hsame hfalse]
          exact .refl _
  · cases changed with
    | true =>
      refine ((store?_gives he key time).conseq (fun s h => h.1) fun _ _ h => h).bind fun saved => ?_
      exact recorded_silent (hf true saved)
    | false =>
      refine ((Gives.pure false).conseq (fun s h => h.2 rfl) fun _ _ h => h.2).bind fun saved => ?_
      exact recorded_silent (hf false saved)

end Use

/-! ### Calls -/

/-- What is to be published can be found: no copy is lost, each copy with changes to publish is one of
the device's own account or has a row, and the rows of every account can be fetched. -/
structure Held.Findable (own : String) (h : Held) : Prop where
  whole : ∀ key, h.copies.find? key ≠ some .broken
  rows : ∀ key r, h.copies.find? key = some (.ready r) → key.account ≠ own → r.needsPush = true →
    (h.database.data? key).isSome
  fetches : ∀ account, h.database.Fetches account

/-- A copy is put in its place, and has a row if it must have one. -/
theorem Held.Findable.insert {h : Held} (hf : h.Findable own) {db : Database}
    (hgrows : h.database.Grows db) {key : CopyKey} {r : Replica}
    (hrow : key.account ≠ own → r.needsPush = true → (db.data? key).isSome) :
    (⟨h.copies.insert key (.ready r), db⟩ : Held).Findable own := by
  refine ⟨fun key' => ?_, fun key' q hq hkey hneeds => ?_, fun account =>
    hgrows.fetches account (hf.fetches account)⟩
  · by_cases hsame : key' = key
    · subst hsame
      simp [SortedMap.find?_insert_self]
    · rw [SortedMap.find?_insert_of_ne hsame]
      exact hf.whole key'
  · by_cases hsame : key' = key
    · subst hsame
      rw [SortedMap.find?_insert_self] at hq
      obtain rfl := Slot.ready.inj (Option.some.inj hq)
      exact hrow hkey hneeds
    · rw [SortedMap.find?_insert_of_ne hsame] at hq
      exact hgrows.rows key' (hf.rows key' q hq hkey hneeds)

namespace Write

variable {α β : Type} {key : CopyKey}

/-- A part of a write that leaves everything findable, if it ends with a result. -/
def Safe (own : String) (x : Write α) : Prop :=
  Gives (fun w => w.held.Findable own) x fun _ w => w.held.Findable own

theorem Safe.of_silent {x : Write α} (hx : Silent Work.held x) : Safe own x := by
  intro w a w' hw hrun
  have hleft := hx w
  simp only [leaves, hrun, Option.some.injEq] at hleft
  rwa [hleft]

theorem checkpoint_safe (key : CopyKey) : Safe own (checkpoint key) := by
  intro w found w' hw hrun
  unfold checkpoint at hrun
  split at hrun
  · obtain rfl := congrArg Prod.snd hrun
    exact hw
  · split at hrun
    · obtain rfl := congrArg Prod.snd hrun
      exact hw
    · split at hrun
      · cases hrun
      · obtain rfl := congrArg Prod.snd hrun
        exact hw

theorem use_safe {x : Use α} (hx : x.Records own key) : Safe own (use key x) := by
  intro w a w' hw hrun
  cases hslot : w.device.copies.find? key with
  | none =>
    rw [use_of_none x hslot] at hrun
    obtain rfl := congrArg Prod.snd hrun
    exact hw
  | some slot =>
    cases slot with
    | broken => exact absurd hslot (hw.whole key)
    | ready r =>
      rcases hxs : x (r, w) with ⟨⟨f | text⟩ | b, r', w₁⟩
      · rw [use_of_failed hslot hxs] at hrun
        cases hrun
      · simp only [use, hslot, hxs] at hrun
        cases hrun
      · rw [use_of_ok hslot hxs] at hrun
        obtain rfl := congrArg Prod.snd hrun
        have hrec := hx (r, w) (r, w) b (r', w₁) rfl hxs
        have hcopies : w₁.device.copies = w.device.copies := hrec.copies
        have hheld : (settle w₁ key (.ready r')).held =
            ⟨w.held.copies.insert key (.ready r'), w₁.tx.database⟩ := by
          simp only [settle, Work.held, hcopies]
        rw [hheld]
        refine hw.insert hrec.database fun hkey hneeds => ?_
        rcases hrec.owes hkey hneeds with hbefore | hrow
        · exact hrec.database.rows key (hw.rows key r hslot hkey hbefore)
        · exact hrow

theorem edit_safe (he : env.engine.Fallible c) {body : Replica → α × Replica}
    (hbody : ∀ r, ∃ changes, (body r).2 = (r.changeAll changes).2) :
    Safe own (edit env key body) := by
  refine (checkpoint_safe key).bind fun found => ?_
  cases found with
  | false => exact Safe.of_silent (Silent.pure none)
  | true =>
    refine Gives.bind (use_safe (Use.edit_records he key env.now hbody fun a stored => ?_))
      fun edited => ?_
    · cases stored with
      | true =>
        refine (Use.outside_silent (changeStats_silent _)).bind fun _ => ?_
        exact Use.copy_silent.bind fun _ => Silent.pure _
      | false => exact Use.copy_silent.bind fun _ => Silent.pure _
    · refine Safe.of_silent ?_
      cases edited with
      | none => exact Silent.pure none
      | some edited =>
        obtain ⟨a, needsPush⟩ := edited
        cases needsPush with
        | true => exact (schedule_silent _ _).bind fun _ => Silent.pure _
        | false => exact Silent.pure _

theorem followOne_safe (he : env.engine.Fallible c) {account : String}
    (hhonest : account = own ∨ ∀ topic, (env.handler topic).Honest) (w : LocalWrite) :
    Safe own (followOne env account w) := by
  unfold followOne
  cases w.target? account with
  | none => exact Safe.of_silent (Silent.pure none)
  | some target =>
    obtain ⟨topic, change⟩ := target
    refine (checkpoint_safe ⟨account, topic⟩).bind fun found => ?_
    cases found with
    | false => exact Safe.of_silent (Silent.pure none)
    | true =>
      refine use_safe (Use.follow_records he env.now (hhonest.imp_right fun h => h topic)
        fun changed saved => ?_)
      exact Use.copy_silent.bind fun _ => Silent.pure _

theorem follow_safe (h : env.Serves c own) (writes : List LocalWrite) :
    Safe own (follow env writes) := by
  unfold follow
  cases hid : env.identity with
  | none => exact Safe.of_silent (Silent.pure false)
  | some account =>
    have hone := followOne_safe h.engine (h.honest account hid)
    refine (Gives.each fun w _ => hone w).bind fun followed => Safe.of_silent ?_
    dsimp only
    split
    · refine (schedule_silent _ _).bind fun _ => ?_
      exact (changeStats_silent _).bind fun _ => Silent.pure _
    · exact (changeStats_silent _).bind fun _ => Silent.pure _

theorem receive_safe (he : env.engine.Fallible c) (account : String) (messages : List Message) :
    Safe own (receive env account messages) := by
  unfold receive
  split
  · intro w outcomes w' _ hrun
    cases hrun
  · refine (Gives.each fun share _ => ?_).bind fun outcomes => Safe.of_silent ?_
    · obtain ⟨topic, share⟩ := share
      refine (checkpoint_safe ⟨account, topic⟩).bind fun found => ?_
      cases found with
      | false => exact Safe.of_silent (Silent.pure none)
      | true => exact use_safe (Use.mergeShare_records he _ share)
    · dsimp only
      split
      · refine (schedule_silent _ _).bind fun _ => ?_
        exact (changeStats_silent _).bind fun _ => Silent.pure _
      · exact (changeStats_silent _).bind fun _ => Silent.pure _

/-- An account that is removed has neither copies nor rows, and that of the others stays. -/
theorem removeAccount_safe (account : String) : Safe own (removeAccount account) := by
  intro w n w' hw hrun
  let w₁ : Work :=
    { w with device := { w.device with copies := w.device.copies.without account } }
  have hunload : ∃ size, unload account w = (.ok size, w₁) := ⟨_, rfl⟩
  obtain ⟨size, hunload⟩ := hunload
  rw [removeAccount, bind_run_ok hunload] at hrun
  cases hremove : w₁.tx.database.removeAll account with
  | error f =>
    rw [rows_of_error hremove] at hrun
    cases hrun
  | ok removed =>
    obtain ⟨m, db⟩ := removed
    rw [rows_of_ok hremove] at hrun
    obtain rfl := congrArg Prod.snd hrun
    obtain ⟨hfetches, hrows⟩ := Database.removeAll_ok hremove
    refine ⟨fun key => ?_, fun key r hr hkey hneeds => ?_, fun account' =>
      hfetches account' (hw.fetches account')⟩
    · simp only [Work.held, w₁, Copies.find?_without]
      split
      · exact fun h => by cases h
      · exact hw.whole key
    · simp only [Work.held, w₁, Copies.find?_without] at hr ⊢
      split at hr
      · cases hr
      · rename_i hne
        rw [hrows key hne]
        exact hw.rows key r hr hkey hneeds

end Write

/-- Whoever edits a copy sets and erases values, and does nothing else to it. -/
def Call.Modest {α : Type} : Call α → Prop
  | .edit _ body => ∀ r, ∃ changes, (body r).2 = (r.changeAll changes).2
  | .receive _ _ | .follow _ => True

theorem Call.safe {α : Type} (h : env.Serves c own) {what : Call α} (hmodest : what.Modest) :
    Write.Safe own (what.run env) := by
  cases what with
  | receive account messages => exact (Write.receive_safe h.engine account messages).map _
  | edit key body => exact (Write.edit_safe h.engine hmodest).map _
  | follow writes => exact (Write.follow_safe h writes).map _

/-! ### Bodies -/

/-- The body of a write in good order: its calls are served and modest, and a call that fails is the
end of it. -/
def Task.Orderly {α β : Type} (c : Cipher) (own : String) : Task α β → Prop
  | done _ => True
  | call env what next => env.Serves c own ∧ what.Modest ∧
      (∀ f, ∃ g, next (.error f) = done (.error g)) ∧ ∀ reply, (next (.ok reply)).Orderly c own
  | remove _ next =>
      (∀ f, ∃ g, next (.error f) = done (.error g)) ∧ ∀ n, (next (.ok n)).Orderly c own

theorem Task.safe {α β : Type} (body : Task α β) (h : body.Orderly c own) :
    Write.Safe own body.run := by
  induction body with
  | done result =>
    cases result with
    | ok b => exact Write.Safe.of_silent (Silent.pure b)
    | error f => exact Gives.fail f
  | call env what next ih =>
    obtain ⟨hserves, hmodest, hfailed, hnext⟩ := h
    refine Gives.attempt_bind (Call.safe hserves hmodest) (fun f => ?_) fun reply =>
      ih (.ok reply) (hnext reply)
    obtain ⟨g, hg⟩ := hfailed f
    exact ⟨g, by rw [hg]; rfl⟩
  | remove account next ih =>
    obtain ⟨hfailed, hnext⟩ := h
    refine Gives.attempt_bind (Write.removeAccount_safe account) (fun f => ?_) fun n =>
      ih (.ok n) (hnext n)
    obtain ⟨g, hg⟩ := hfailed f
    exact ⟨g, by rw [hg]; rfl⟩

end AccountSync
