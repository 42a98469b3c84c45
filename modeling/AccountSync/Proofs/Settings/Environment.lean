import AccountSync.Proofs.Duration.Reading
import AccountSync.Settings.Environment
/-!
What the variables of an environment mean. Each gives one field of the settings in its own way of
writing (`Variable.all`). An environment gives settings exactly if every variable that is a text
means a value, and these values, with the defaults for the other fields, make sense
(`Settings.ofEnvironment_eq_ok_iff`). A variable whose bytes are no text is passed over in silence;
nothing else is (`Environment.honoured_iff`).
-/

namespace AccountSync

/-! ### Variables -/

/-- A variable that settings are read from: the field that it gives, and what its texts mean. -/
structure Variable where
  name : String
  Value : Type
  field : Settings → Value
  Means : String → Value → Prop

namespace Variable

def path : Variable := ⟨"CONFSYNC_STORE_DB_PATH", String, Settings.path, fun t p => t = p⟩

def connections : Variable :=
  ⟨"CONFSYNC_STORE_POOL_SIZE", UInt32, Settings.connections,
    fun t n => Decimal.Shows t.toList n.toNat⟩

def limit : Variable :=
  ⟨"CONFSYNC_SYNC_MAX_MESSAGE_SIZE", UInt64, Settings.limit,
    fun t n => Decimal.Shows t.toList n.toNat⟩

def timeout : Variable :=
  ⟨"CONFSYNC_SYNC_REQUEST_TIMEOUT", Duration, Settings.timeout, Duration.Spells⟩

def level : Variable := ⟨"CONFSYNC_LOG_LEVEL", String, Settings.level, fun t l => t = l⟩

def json : Variable :=
  ⟨"CONFSYNC_LOG_JSON", Bool, Settings.json, fun t b => t = if b then "true" else "false"⟩

def all : List Variable := [path, connections, limit, timeout, level, json]

/-- The value of the field if nothing gives it. -/
def default (v : Variable) : v.Value := v.field {}

/-- Bytes denote a value: they are a text that means it. -/
def Denotes (v : Variable) (bytes : Bytes) (a : v.Value) : Prop :=
  ∃ t, Utf8.encode t = bytes ∧ v.Means t a

/-- A value is what an environment gives: what the text of the variable means, or the default if the
variable has no text. -/
def Gives (v : Variable) (env : Environment) (a : v.Value) : Prop :=
  (∃ t, env.lookup v.name = some (Utf8.encode t) ∧ v.Means t a) ∨
    (∀ t, env.lookup v.name ≠ some (Utf8.encode t)) ∧ a = v.default

end Variable

namespace Environment

variable {env : Environment} {name : String}

theorem text?_eq_some_iff {t : String} :
    env.text? name = some t ↔ env.lookup name = some (Utf8.encode t) := by
  unfold text?
  cases env.lookup name with
  | none => exact ⟨nofun, nofun⟩
  | some bytes =>
    rw [Option.bind_some, Option.some.injEq, eq_comm (a := bytes), ← Utf8.decode_eq_ok_iff]
    cases Utf8.decode bytes <;> simp [Except.toOption]

theorem text?_eq_none_iff :
    env.text? name = none ↔ ∀ t, env.lookup name ≠ some (Utf8.encode t) := by
  simp only [Option.eq_none_iff_forall_ne_some, Ne, text?_eq_some_iff]

theorem gives_iff (v : Variable) {a : v.Value} : v.Gives env a ↔
    (∃ t, env.text? v.name = some t ∧ v.Means t a) ∨ env.text? v.name = none ∧ a = v.default := by
  simp only [Variable.Gives, text?_eq_some_iff, text?_eq_none_iff]

/-- A variable that is taken as it is gives its text. -/
theorem gives_iff_getD {name : String} {field : Settings → String} {a : String} :
    (Variable.mk name String field fun t a => t = a).Gives env a ↔
      (env.text? name).getD (field {}) = a := by
  rw [gives_iff]
  cases env.text? name with
  | none => simp [Variable.default, eq_comm]
  | some t => simp

/-- A variable with a reader gives what the reader makes of its text. -/
theorem gives_iff_read (v : Variable) {β : Type} {read : String → Except String β}
    {f : β → v.Value} {a : v.Value} (hread : ∀ t a, v.Means t a ↔ ∃ b, read t = .ok b ∧ f b = a) :
    v.Gives env a ↔ ∃ o, env.read v.name read = .ok o ∧ (o.map f).getD v.default = a := by
  rw [gives_iff, Environment.read]
  cases env.text? v.name with
  | none => simp [eq_comm]
  | some t =>
    simp only [Option.some.injEq, exists_eq_left', hread, reduceCtorEq, false_and, or_false]
    cases read t with
    | error reason => exact iff_of_false nofun nofun
    | ok b => simp

end Environment

namespace Settings

variable {env : Environment} {s : Settings}

/-! ### What the readers read -/

theorem mapError_eq_ok_iff {ε ε' α : Type} {x : Except ε α} {f : ε → ε'} {a : α} :
    x.mapError f = .ok a ↔ x = .ok a := by
  cases x with
  | error e => exact ⟨nofun, nofun⟩
  | ok b => exact ⟨fun h => congrArg _ (Except.ok.inj h), fun h => congrArg _ (Except.ok.inj h)⟩

theorem readNumber_eq_ok_iff {bound n : Nat} {t : String} :
    readNumber bound t = .ok n ↔ Decimal.Shows t.toList n ∧ n < bound :=
  mapError_eq_ok_iff.trans Decimal.read_eq_ok_iff

theorem means_connections (t : String) (a : UInt32) : Variable.connections.Means t a ↔
    ∃ n, readNumber UInt32.size t = .ok n ∧ UInt32.ofNat n = a := by
  simp only [readNumber_eq_ok_iff]
  constructor
  · exact fun h => ⟨a.toNat, ⟨h, a.toNat_lt⟩, UInt32.ofNat_toNat⟩
  · rintro ⟨n, ⟨hshows, hlt⟩, rfl⟩
    change Decimal.Shows t.toList (UInt32.ofNat n).toNat
    rwa [UInt32.toNat_ofNat_of_lt' hlt]

theorem means_limit (t : String) (a : UInt64) : Variable.limit.Means t a ↔
    ∃ n, readNumber UInt64.size t = .ok n ∧ UInt64.ofNat n = a := by
  simp only [readNumber_eq_ok_iff]
  constructor
  · exact fun h => ⟨a.toNat, ⟨h, a.toNat_lt⟩, UInt64.ofNat_toNat⟩
  · rintro ⟨n, ⟨hshows, hlt⟩, rfl⟩
    change Decimal.Shows t.toList (UInt64.ofNat n).toNat
    rwa [UInt64.toNat_ofNat_of_lt' hlt]

theorem means_timeout (t : String) (a : Duration) : Variable.timeout.Means t a ↔
    ∃ d, readDuration t = .ok d ∧ d = a := by
  simp only [readDuration, mapError_eq_ok_iff, Duration.read_eq_ok_iff, exists_eq_right]
  rfl

theorem means_json (t : String) (a : Bool) : Variable.json.Means t a ↔
    ∃ b, readFlag t = .ok b ∧ b = a := by
  rw [exists_eq_right]
  change (t = if a then "true" else "false") ↔ _
  unfold readFlag
  by_cases htrue : t = "true"
  · rw [if_pos htrue, htrue]
    cases a <;> decide
  by_cases hfalse : t = "false"
  · rw [if_neg htrue, if_pos hfalse, hfalse]
    cases a <;> decide
  · rw [if_neg htrue, if_neg hfalse]
    cases a with
    | false => exact iff_of_false hfalse nofun
    | true => exact iff_of_false htrue nofun

theorem means_unique_of_read (v : Variable) {β : Type} {read : String → Except String β}
    {f : β → v.Value} (hread : ∀ t a, v.Means t a ↔ ∃ b, read t = .ok b ∧ f b = a) (t : String)
    (a b : v.Value) (ha : v.Means t a) (hb : v.Means t b) : a = b := by
  obtain ⟨x, hx, rfl⟩ := (hread t a).1 ha
  obtain ⟨y, hy, rfl⟩ := (hread t b).1 hb
  exact congrArg f (Except.ok.inj (hx.symm.trans hy))

theorem means_unique : ∀ v ∈ Variable.all, ∀ (t : String) (a b : v.Value),
    v.Means t a → v.Means t b → a = b := by
  have htext (t a b : String) (ha : t = a) (hb : t = b) : a = b := ha.symm.trans hb
  simp only [Variable.all, List.forall_mem_cons]
  exact ⟨htext, means_unique_of_read _ means_connections, means_unique_of_read _ means_limit,
    means_unique_of_read _ means_timeout, htext, means_unique_of_read _ means_json, nofun⟩

/-- Bytes denote at most one value. -/
theorem denotes_unique {v : Variable} (hv : v ∈ Variable.all) {bytes : Bytes} {a b : v.Value}
    (ha : v.Denotes bytes a) (hb : v.Denotes bytes b) : a = b := by
  obtain ⟨t, ht, ha⟩ := ha
  obtain ⟨t', ht', hb⟩ := hb
  obtain rfl : t = t' := Except.ok.inj
    ((Utf8.decode_eq_ok_iff.2 ht).symm.trans (Utf8.decode_eq_ok_iff.2 ht'))
  exact means_unique v hv t a b ha hb

theorem checked_eq_ok_iff {s' : Settings} : s.checked = .ok s' ↔ s.check = .ok () ∧ s = s' := by
  rw [checked, bind_eq_ok_iff]
  constructor
  · rintro ⟨_, hcheck, hs⟩
    exact ⟨hcheck, Except.ok.inj hs⟩
  · rintro ⟨hcheck, rfl⟩
    exact ⟨(), hcheck, rfl⟩

/-- What all variables give, as they are read one after the other. -/
theorem forall_gives_iff : (∀ v ∈ Variable.all, v.Gives env (v.field s)) ↔
    (env.text? "CONFSYNC_STORE_DB_PATH").getD ({} : Settings).path = s.path ∧
    (∃ o, env.read "CONFSYNC_STORE_POOL_SIZE" (readNumber UInt32.size) = .ok o ∧
      (o.map UInt32.ofNat).getD ({} : Settings).connections = s.connections) ∧
    (∃ o, env.read "CONFSYNC_SYNC_MAX_MESSAGE_SIZE" (readNumber UInt64.size) = .ok o ∧
      (o.map UInt64.ofNat).getD ({} : Settings).limit = s.limit) ∧
    (∃ o, env.read "CONFSYNC_SYNC_REQUEST_TIMEOUT" readDuration = .ok o ∧
      (o.map id).getD ({} : Settings).timeout = s.timeout) ∧
    (env.text? "CONFSYNC_LOG_LEVEL").getD ({} : Settings).level = s.level ∧
    ∃ o, env.read "CONFSYNC_LOG_JSON" readFlag = .ok o ∧
      (o.map id).getD ({} : Settings).json = s.json := by
  simp only [Variable.all, List.forall_mem_cons, List.not_mem_nil, false_implies, implies_true,
    and_true]
  exact and_congr Environment.gives_iff_getD <|
    and_congr (Environment.gives_iff_read _ means_connections) <|
    and_congr (Environment.gives_iff_read _ means_limit) <|
    and_congr (Environment.gives_iff_read _ means_timeout) <|
    and_congr Environment.gives_iff_getD (Environment.gives_iff_read _ means_json)

/-- An environment gives settings that make sense: of each variable what its text means, and the
defaults for the rest. -/
theorem ofEnvironment_eq_ok_iff : ofEnvironment env = .ok s ↔
    (∀ v ∈ Variable.all, v.Gives env (v.field s)) ∧ s.targets = ({} : Settings).targets ∧
      s.check = .ok () := by
  rw [forall_gives_iff, ofEnvironment]
  simp only [bind_eq_ok_iff, checked_eq_ok_iff, Option.map_id_fun, id]
  constructor
  · rintro ⟨connections, hc, limit, hl, timeout, ht, json, hj, hcheck, rfl⟩
    exact ⟨⟨rfl, ⟨connections, hc, rfl⟩, ⟨limit, hl, rfl⟩, ⟨timeout, ht, rfl⟩, rfl,
      ⟨json, hj, rfl⟩⟩, rfl, hcheck⟩
  · rintro ⟨⟨hpath, ⟨connections, hc, hconnections⟩, ⟨limit, hl, hlimit⟩, ⟨timeout, ht, htimeout⟩,
      hlevel, ⟨json, hj, hjson⟩⟩, htargets, hcheck⟩
    refine ⟨connections, hc, limit, hl, timeout, ht, json, hj, ?_⟩
    rw [hpath, hconnections, hlimit, htimeout, hlevel, hjson, ← htargets]
    -- By now what is checked are the fields of `s`.
    exact ⟨hcheck, rfl⟩

end Settings

namespace Environment

variable {env : Environment}

/-- No variable is passed over in silence: settings that are given have the value that each variable
denotes, the defaults for the others, and make sense; and what denotes no value is refused. -/
structure Honoured (env : Environment) : Prop where
  given : ∀ s, Settings.ofEnvironment env = .ok s →
    (∀ v ∈ Variable.all, ∀ bytes, env.lookup v.name = some bytes → v.Denotes bytes (v.field s)) ∧
    (∀ v ∈ Variable.all, env.lookup v.name = none → v.field s = v.default) ∧
    s.targets = ({} : Settings).targets ∧ s.check = .ok ()
  refused : ∀ v ∈ Variable.all, ∀ bytes, env.lookup v.name = some bytes →
    (¬ ∃ a, v.Denotes bytes a) → ∃ fault, Settings.ofEnvironment env = .error fault

/-- A variable is a text, if it is set. -/
def Legible (env : Environment) (v : Variable) : Prop :=
  ∀ bytes, env.lookup v.name = some bytes → ∃ t, Utf8.encode t = bytes

theorem denotes_of_gives {v : Variable} {a : v.Value} {bytes : Bytes} (hv : env.Legible v)
    (h : v.Gives env a) (hbytes : env.lookup v.name = some bytes) : v.Denotes bytes a := by
  rcases h with ⟨t, ht, hmeans⟩ | ⟨hnone, -⟩
  · exact ⟨t, Option.some.inj (ht.symm.trans hbytes), hmeans⟩
  · obtain ⟨t, ht⟩ := hv bytes hbytes
    exact absurd (ht ▸ hbytes) (hnone t)

theorem default_of_gives {v : Variable} {a : v.Value} (h : v.Gives env a)
    (hnone : env.lookup v.name = none) : a = v.default := by
  rcases h with ⟨t, ht, -⟩ | ⟨-, ha⟩
  · cases hnone.symm.trans ht
  · exact ha

theorem error_of_not_ok {ε α : Type} {x : Except ε α} (h : ∀ a, x ≠ .ok a) : ∃ e, x = .error e := by
  cases x with
  | error e => exact ⟨e, rfl⟩
  | ok a => exact absurd rfl (h a)

theorem honoured_of_legible (h : ∀ v ∈ Variable.all, env.Legible v) : Honoured env where
  given s hs := by
    obtain ⟨hgives, htargets, hcheck⟩ := Settings.ofEnvironment_eq_ok_iff.1 hs
    exact ⟨fun v hv bytes => denotes_of_gives (h v hv) (hgives v hv),
      fun v hv => default_of_gives (hgives v hv), htargets, hcheck⟩
  refused v hv bytes hbytes hdenotes := by
    refine error_of_not_ok fun s hs => hdenotes ?_
    have hgives := (Settings.ofEnvironment_eq_ok_iff.1 hs).1 v hv
    exact ⟨v.field s, denotes_of_gives (h v hv) hgives hbytes⟩

theorem honoured_of_error {fault : SettingsFault} (h : Settings.ofEnvironment env = .error fault) :
    Honoured env where
  given s hs := by cases h.symm.trans hs
  refused v hv bytes hbytes hdenotes := ⟨fault, h⟩

/-- What settings an environment gives, in every case: those of its variables that are a text say
what the fields are, and every variable is honoured unless settings are given although one of them is
no text. -/
theorem honoured_iff (env : Environment) :
    (∀ s, Settings.ofEnvironment env = .ok s ↔
      (∀ v ∈ Variable.all, v.Gives env (v.field s)) ∧ s.targets = ({} : Settings).targets ∧
        s.check = .ok ()) ∧
    (Honoured env ↔ (∀ v ∈ Variable.all, env.Legible v) ∨
      ∃ fault, Settings.ofEnvironment env = .error fault) := by
  refine ⟨fun s => Settings.ofEnvironment_eq_ok_iff, fun h => ?_, ?_⟩
  · by_cases hlegible : ∀ v ∈ Variable.all, env.Legible v
    · exact .inl hlegible
    simp only [Legible, not_forall, not_exists] at hlegible
    obtain ⟨v, hv, bytes, hbytes, htext⟩ := hlegible
    -- What is no text denotes nothing, so it is refused.
    exact .inr (h.refused v hv bytes hbytes fun ⟨_, t, ht, _⟩ => htext t ht)
  · rintro (h | ⟨fault, h⟩)
    · exact honoured_of_legible h
    · exact honoured_of_error h

/-- Two bytes that are no text, where the limit should stand, leave the default limit. -/
theorem not_honoured_illegible : ¬ Honoured [("CONFSYNC_SYNC_MAX_MESSAGE_SIZE", [0xff, 0xff])] := by
  intro h
  have htext (t : String) : Utf8.encode t ≠ [0xff, 0xff] := by
    intro ht
    have hfails : (Utf8.decode [0xff, 0xff]).toOption = none := by decide +kernel
    cases (Utf8.decode_eq_ok_iff.2 ht ▸ hfails : (Except.ok t).toOption = none)
  have hgives : ∀ v ∈ Variable.all,
      v.Gives [("CONFSYNC_SYNC_MAX_MESSAGE_SIZE", [0xff, 0xff])] (v.field {}) := by
    intro v hv
    refine .inr ⟨fun t ht => ?_, rfl⟩
    rw [List.lookup_cons] at ht
    split at ht
    · exact htext t (Option.some.inj ht).symm
    · cases ht
  have hcheck : ({} : Settings).check = .ok () := by decide +kernel
  have hok := Settings.ofEnvironment_eq_ok_iff.2 ⟨hgives, rfl, hcheck⟩
  obtain ⟨fault, hfault⟩ := h.refused .limit (by simp [Variable.all]) [0xff, 0xff] rfl
    fun ⟨_, t, ht, _⟩ => htext t ht
  cases hok.symm.trans hfault

end Environment

end AccountSync
