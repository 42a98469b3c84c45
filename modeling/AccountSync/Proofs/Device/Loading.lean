import AccountSync.Device.Load
import AccountSync.Proofs.Device.Held
import AccountSync.Proofs.Store.Rows
/-!
What a device has in memory after a restart. The copies come from the database alone
(`Device.held_reload`), and the copy of each topic from its own row (`Database.find?_loadCopies`):
the rows of an account are found by the tags of its topics, and each tag stands for one topic.
-/

namespace AccountSync

/-! ### Rows -/

namespace Database

/-- The row of a topic. -/
def row? (db : Database) (key : CopyKey) : Option RowData :=
  db.table.bind fun t => t.rows.find? ⟨key.account, key.topic.tag⟩

/-- What is fetched for a topic is what its row holds. -/
theorem fetchAll_ok {db : Database} {account : String} {dumps : List Dump}
    (h : db.fetchAll account = .ok dumps) : db.Fetches account ∧ ∀ topic data,
      (∃ d ∈ dumps, d.topic = topic ∧ d.data = data) ↔
        (db.row? ⟨account, topic⟩).map RowData.data = some data := by
  have htable : ∃ t, db.timedTable = .ok t := by
    cases ht : db.timedTable with
    | ok t => exact ⟨t, rfl⟩
    | error f => rw [fetchAll, ht] at h; cases h
  obtain ⟨t, ht⟩ := htable
  obtain ⟨hdb, htimed⟩ := timedTable_ok_iff.1 ht
  rw [fetchAll_eq ht] at h
  obtain ⟨hto, hfrom⟩ := mem_of_mapM_ok h
  refine ⟨⟨t, hdb, htimed, fun tag row hrow => ?_⟩, fun topic data => ?_⟩
  · obtain ⟨d, -, hd⟩ := hto (tag, row) (mem_rowsOf.2 hrow)
    exact ⟨d.topic, (dumpOf_ok_iff.1 hd).1⟩
  · have hrow : (db.row? ⟨account, topic⟩).map RowData.data = some data ↔
        ∃ row, t.rows.find? ⟨account, topic.tag⟩ = some row ∧ row.data = data := by
      simp [row?, hdb]
    rw [hrow]
    constructor
    · rintro ⟨d, hmem, rfl, rfl⟩
      obtain ⟨⟨tag, row⟩, hrow, hd⟩ := hfrom d hmem
      obtain ⟨rfl, hdata⟩ := dumpOf_ok_iff.1 hd
      exact ⟨row, mem_rowsOf.1 hrow, by rw [hdata]⟩
    · rintro ⟨row, hfind, rfl⟩
      obtain ⟨d, hmem, hd⟩ := hto (topic.tag, row) (mem_rowsOf.2 hfind)
      obtain ⟨htag, hdata⟩ := dumpOf_ok_iff.1 hd
      exact ⟨d, hmem, (Topic.tag_inj htag).symm, by rw [hdata]⟩

end Database

/-! ### Starting copies -/

/-- The dumps from which copies are started, a topic without one among them. -/
def Dump.starts (dumps : List Dump) : List (Topic × Option Bytes) :=
  dumps.map (fun d => (d.topic, some d.data)) ++
    (Topic.all.filter fun t => !(dumps.map (·.topic)).contains t).map (·, none)

theorem Dump.mem_starts {db : Database} {account : String} {dumps : List Dump}
    (h : db.fetchAll account = .ok dumps) {topic : Topic} {data : Option Bytes} :
    (topic, data) ∈ starts dumps ↔ data = (db.row? ⟨account, topic⟩).map RowData.data := by
  have hrow := (Database.fetchAll_ok h).2 topic
  have hnone : (∀ d ∈ dumps, d.topic ≠ topic) ↔
      (db.row? ⟨account, topic⟩).map RowData.data = none := by
    rw [Option.eq_none_iff_forall_ne_some]
    constructor
    · intro hall data hdata
      obtain ⟨d, hd, htopic, -⟩ := (hrow data).2 hdata
      exact hall d hd htopic
    · intro hall d hd htopic
      exact hall d.data ((hrow d.data).1 ⟨d, hd, htopic, rfl⟩)
  have hmem : (topic, data) ∈ starts dumps ↔
      (∃ d ∈ dumps, d.topic = topic ∧ some d.data = data) ∨
        (∀ d ∈ dumps, d.topic ≠ topic) ∧ data = none := by
    simp only [starts, List.mem_append, List.mem_map, List.mem_filter, Prod.mk.injEq]
    refine or_congr Iff.rfl ⟨?_, ?_⟩
    · rintro ⟨t, ⟨-, ht⟩, rfl, rfl⟩
      refine ⟨fun d hd htopic => ?_, rfl⟩
      simp only [Bool.not_eq_true', List.contains_eq_mem, decide_eq_false_iff_not] at ht
      exact ht (List.mem_map.2 ⟨d, hd, htopic⟩)
    · rintro ⟨hall, rfl⟩
      refine ⟨topic, ⟨Topic.mem_all topic, ?_⟩, rfl, rfl⟩
      simp only [Bool.not_eq_true', List.contains_eq_mem, decide_eq_false_iff_not, List.mem_map]
      rintro ⟨d, hd, htopic⟩
      exact hall d hd htopic
  rw [hmem]
  cases data with
  | none =>
    simp only [reduceCtorEq, and_false, exists_false, false_or, and_true, hnone]
    exact eq_comm
  | some data =>
    simp only [Option.some.injEq, hrow, reduceCtorEq, and_false, or_false]
    exact eq_comm

/-- Starts copies one after the other, each in its place. -/
def Copies.startAll (engine : Engine) (account : String) (secret : Bytes) (cs : Copies)
    (l : List (Topic × Option Bytes)) : Copies :=
  l.foldl (fun cs start => match engine.start start.1 secret start.2 with
    | .ok copy => cs.insert ⟨account, start.1⟩ (.ready copy)
    | .error _ => cs) cs

section StartAll

variable {engine : Engine} {account : String} {secret : Bytes} {topic : Topic} {dump : Option Bytes}

theorem Copies.startAll_cons_ok {copy : Replica} (h : engine.start topic secret dump = .ok copy)
    (cs : Copies) (l : List (Topic × Option Bytes)) :
    cs.startAll engine account secret ((topic, dump) :: l) =
      Copies.startAll engine account secret (cs.insert ⟨account, topic⟩ (.ready copy)) l := by
  simp only [startAll, List.foldl_cons, h]

theorem Copies.startAll_cons_error {t : Trouble} (h : engine.start topic secret dump = .error t)
    (cs : Copies) (l : List (Topic × Option Bytes)) :
    cs.startAll engine account secret ((topic, dump) :: l) =
      cs.startAll engine account secret l := by
  simp only [startAll, List.foldl_cons, h]

/-- The topics of which copies are started. -/
def Engine.startable (engine : Engine) (secret : Bytes) (l : List (Topic × Option Bytes)) :
    List Topic :=
  (l.filter fun start => (engine.start start.1 secret start.2).isOk).map Prod.fst

theorem Write.startAll_run (env : Env) (account : String) (secret : Bytes) :
    ∀ (l : List (Topic × Option Bytes)) (w : Work), startAll env account secret l w =
      (.ok (env.engine.startable secret l), { w with device :=
        { w.device with copies := w.device.copies.startAll env.engine account secret l } })
  | [], w => rfl
  | (topic, dump) :: l, w => by
    cases hstart : env.engine.start topic secret dump with
    | error t =>
      have hrun : startCopy env ⟨account, topic⟩ secret dump w = (.ok false, w) := by
        simp only [startCopy, hstart]
        rfl
      rw [startAll, Step.bind_run_ok hrun, Step.bind_run_ok (startAll_run env account secret l w),
        Copies.startAll_cons_error hstart]
      simp [Engine.startable, hstart, Except.isOk, Except.toBool, Step.pure_run]
    | ok copy =>
      have hrun : startCopy env ⟨account, topic⟩ secret dump w =
          (.ok true, settle w ⟨account, topic⟩ (.ready copy)) := by
        simp only [startCopy, hstart]
        rfl
      rw [startAll, Step.bind_run_ok hrun, Step.bind_run_ok (startAll_run env account secret l _),
        Copies.startAll_cons_ok hstart]
      simp [Engine.startable, hstart, Except.isOk, Except.toBool, Step.pure_run, settle]

theorem Copies.find?_startAll_of_notMem {key : CopyKey} : ∀ {l : List (Topic × Option Bytes)}
    {cs : Copies}, key.topic ∉ l.map Prod.fst →
    (cs.startAll engine account secret l).find? key = cs.find? key
  | [], cs, _ => rfl
  | (t, x) :: l, cs, h => by
    obtain ⟨ht, hl⟩ : key.topic ≠ t ∧ key.topic ∉ l.map Prod.fst := by simpa using h
    cases hstart : engine.start t secret x with
    | error e => rw [startAll_cons_error hstart, find?_startAll_of_notMem hl]
    | ok copy =>
      rw [startAll_cons_ok hstart, find?_startAll_of_notMem hl, SortedMap.find?_insert_of_ne]
      rintro rfl
      exact ht rfl

/-- A copy is started from what is listed for its topic; if that fails, the one of before stays. -/
theorem Copies.find?_startAll {l : List (Topic × Option Bytes)} {cs : Copies}
    (h : ∀ x, (topic, x) ∈ l → x = dump) (hmem : (topic, dump) ∈ l) :
    (cs.startAll engine account secret l).find? ⟨account, topic⟩ =
      ((engine.start topic secret dump).toOption.map .ready).or (cs.find? ⟨account, topic⟩) := by
  induction l generalizing cs with
  | nil => cases hmem
  | cons p l ih =>
    obtain ⟨t, x⟩ := p
    have ih := fun {cs} => @ih cs fun x hx => h x (List.mem_cons_of_mem _ hx)
    by_cases ht : t = topic
    · subst ht
      obtain rfl : x = dump := h x List.mem_cons_self
      by_cases hin : (t, x) ∈ l
      · cases hstart : engine.start t secret x with
        | error e => rw [startAll_cons_error hstart, ih hin, hstart]
        | ok copy =>
          rw [startAll_cons_ok hstart, ih hin, hstart, SortedMap.find?_insert_self]
          rfl
      · have hno : t ∉ l.map Prod.fst := by
          intro hm
          obtain ⟨⟨t', x'⟩, hmem', rfl⟩ := List.mem_map.1 hm
          obtain rfl := h x' (List.mem_cons_of_mem _ hmem')
          exact hin hmem'
        cases hstart : engine.start t secret x with
        | error e =>
          rw [startAll_cons_error hstart, find?_startAll_of_notMem hno]
          rfl
        | ok copy =>
          rw [startAll_cons_ok hstart, find?_startAll_of_notMem hno, SortedMap.find?_insert_self]
          rfl
    · have hin : (topic, dump) ∈ l := by
        rcases List.mem_cons.1 hmem with heq | hin
        · exact absurd (Prod.ext_iff.1 heq).1.symm ht
        · exact hin
      cases hstart : engine.start t secret x with
      | error e => rw [startAll_cons_error hstart, ih hin]
      | ok copy =>
        have hkey : (⟨account, topic⟩ : CopyKey) ≠ ⟨account, t⟩ := by
          intro heq
          exact ht (CopyKey.mk.inj heq).2.symm
        rw [startAll_cons_ok hstart, ih hin, SortedMap.find?_insert_of_ne hkey]

end StartAll

/-! ### After a restart -/

/-- The copies that an account has after a restart. -/
def Database.loadCopies (db : Database) (engine : Engine) (account : String) (secret : Bytes) :
    Copies :=
  if secret = [] then ∅
  else match db.fetchAll account with
    | .ok dumps => Copies.startAll engine account secret ∅ (Dump.starts dumps)
    | .error _ => ∅

/-- The copy of a topic comes from its row, if the account's rows can be fetched. -/
theorem Database.find?_loadCopies (db : Database) (engine : Engine) (account : String)
    {secret : Bytes} (topic : Topic) (h : db.Fetches account) (hsecret : secret ≠ []) :
    (db.loadCopies engine account secret).find? ⟨account, topic⟩ =
      (engine.start topic secret ((db.row? ⟨account, topic⟩).map RowData.data)).toOption.map
        .ready := by
  obtain ⟨dumps, hdumps⟩ := exists_fetchAll_ok h
  have hmem : ∀ {x}, (topic, x) ∈ Dump.starts dumps ↔
      x = (db.row? ⟨account, topic⟩).map RowData.data := Dump.mem_starts hdumps
  rw [loadCopies, if_neg hsecret, hdumps]
  dsimp only
  rw [Copies.find?_startAll (fun x hx => hmem.1 hx) (hmem.2 rfl)]
  exact Option.or_none

/-- A restart loads copies of one account only. -/
theorem Database.find?_loadCopies_of_ne (db : Database) (engine : Engine) {account : String}
    (secret : Bytes) {key : CopyKey} (hkey : key.account ≠ account) :
    (db.loadCopies engine account secret).find? key = none := by
  have hstart : ∀ (l : List (Topic × Option Bytes)) (cs : Copies),
      (cs.startAll engine account secret l).find? key = cs.find? key := by
    intro l
    induction l with
    | nil => exact fun _ => rfl
    | cons p l ih =>
      obtain ⟨topic, dump⟩ := p
      intro cs
      cases hstart : engine.start topic secret dump with
      | error t => rw [Copies.startAll_cons_error hstart, ih]
      | ok copy =>
        rw [Copies.startAll_cons_ok hstart, ih, SortedMap.find?_insert_of_ne]
        rintro rfl
        exact hkey rfl
  unfold loadCopies
  split
  · rfl
  · split
    · exact hstart _ ∅
    · rfl

/-- The device of the next start of the program, which loads an account. -/
def Device.reload (d : Device) (env : Env) (account : String) (secret : Bytes) : Device :=
  (d.restart.read (Write.load env account (some secret))).2

namespace Write

variable {d : Device} {account : String} {secret : Bytes}

/-- With something loaded already, nothing is loaded. -/
theorem load_of_loaded {w : Work} (h : w.device.copies ≠ ∅) (env : Env) (account : String)
    (secret : Option Bytes) : load env account secret w = (.ok [], w) := by
  rcases secret with _ | _ | ⟨byte, bytes⟩
  · rfl
  · rfl
  · have hloaded : w.device.copies.isEmpty = false := by
      rw [Bool.eq_false_iff]
      intro hempty
      refine h (SortedMap.ext_find? fun key => ?_)
      have hlist : w.device.copies.toList = [] := List.isEmpty_iff.1 hempty
      rw [SortedMap.find?, hlist]
      rfl
    have hstate : Step.state w = (.ok w, w) := rfl
    unfold load
    dsimp only
    rw [Step.bind_run_ok hstate, hloaded]
    rfl

/-- Where nothing is loaded, the account's dumps are fetched and copies started from them. -/
theorem load_of_empty (hnone : d.copies = ∅) (env : Env) (account : String)
    (hsecret : secret ≠ []) : load env account (some secret) d.start = (do
      let dumps ← rows fun db => return (← db.fetchAll account, db)
      let started ← startAll env account secret (Dump.starts dumps)
      return Topic.byRank.filter started.contains) d.start := by
  obtain ⟨byte, bytes, rfl⟩ := List.exists_cons_of_ne_nil hsecret
  have hstate : Step.state d.start = (.ok d.start, d.start) := rfl
  have hempty : d.start.device.copies.isEmpty = true := by
    rw [show d.start.device.copies = ∅ from hnone]
    rfl
  unfold load
  dsimp only
  rw [Step.bind_run_ok hstate]
  simp only [hempty, Bool.not_true, Bool.false_eq_true, if_false]
  rfl

theorem load_fetched (hnone : d.copies = ∅) (env : Env) (hsecret : secret ≠ [])
    {dumps : List Dump} (hfetch : d.database.fetchAll account = .ok dumps) :
    load env account (some secret) d.start =
      (.ok (Topic.byRank.filter (env.engine.startable secret (Dump.starts dumps)).contains),
        { d.start with device := { d with
          copies := d.copies.startAll env.engine account secret (Dump.starts dumps) } }) := by
  have hrows : rows (fun db => return (← db.fetchAll account, db)) d.start = (.ok dumps, d.start) :=
    rows_of_ok (by simp only [Device.start, hfetch]; rfl)
  rw [load_of_empty hnone env account hsecret, Step.bind_run_ok hrows,
    Step.bind_run_ok (startAll_run env account secret _ d.start)]
  rfl

/-- Where nothing is loaded, the copies of an account come from its rows. -/
theorem load_run (hnone : d.copies = ∅) (env : Env) (account : String) (secret : Bytes) :
    ∃ result, load env account (some secret) d.start = (result, { d.start with device :=
      { d with copies := d.database.loadCopies env.engine account secret } }) := by
  have hsame : ({ d with copies := ∅ } : Device) = d := by rw [← hnone]
  unfold Database.loadCopies
  by_cases hsecret : secret = []
  · subst hsecret
    exact ⟨.ok [], by rw [if_pos rfl, hsame]; rfl⟩
  · rw [if_neg hsecret]
    cases hfetch : d.database.fetchAll account with
    | ok dumps => exact ⟨_, hnone ▸ load_fetched hnone env hsecret hfetch⟩
    | error f =>
      have hrows : rows (fun db => return (← db.fetchAll account, db)) d.start =
          (.error (.failed f), d.start) :=
        rows_of_error (by simp only [Device.start, hfetch]; rfl)
      refine ⟨.error (.failed f), ?_⟩
      rw [load_of_empty hnone env account hsecret, Step.bind_run_error hrows, hsame]
      rfl

end Write

theorem Device.held_reload (d : Device) (env : Env) (account : String) (secret : Bytes) :
    (d.reload env account secret).held =
      ⟨d.database.loadCopies env.engine account secret, d.database⟩ := by
  obtain ⟨result, hrun⟩ := Write.load_run (d := d.restart) rfl env account secret
  simp only [reload, read, hrun, held]
  rfl

end AccountSync
