import AccountSync.Proofs.Duration
import AccountSync.Proofs.Files.Tree
import AccountSync.Proofs.Toml.Grammar
import AccountSync.Settings.File
/-!
Settings that make sense and are saved in a file are loaded from it as they were
(`Settings.load_save`).
-/

namespace AccountSync

namespace Settings

open Toml Toml.Grammar

/-! ### The lines of the file -/

/-- A setting in a file: its name, how it is written and what is read. -/
structure Entry where
  name : String
  text : String
  item : Item

def tableLines (name : String) (entries : List Entry) : List Line :=
  headerLine name :: entries.map fun e => assignLine e.name e.text.toList e.item

theorem toList_tableText (name : String) (entries : List Entry) :
    (tableText name (entries.map fun e => (e.name, e.text))).toList =
      (tableLines name entries).flatMap Prod.fst := by
  have hheader : (s!"[{name}]\n").toList = (headerLine name).1 := by
    simp [headerLine, String.toList_append]
    rfl
  have hentry (e : Entry) : (s!"{e.name} = {e.text}\n").toList =
      (assignLine e.name e.text.toList e.item).1 := by
    simp [assignLine, String.toList_append]
    rfl
  rw [tableText, String.toList_append, hheader, String.toList_join, tableLines, List.flatMap_cons]
  simp only [List.flatMap_map, hentry]

theorem reads_tableLines {name : String} {entries : List Entry} (hname : BareKey name)
    (hentries : ∀ e ∈ entries, BareKey e.name ∧ Legible e.text.toList e.item) :
    ∀ l ∈ tableLines name entries, Reads l := by
  refine List.forall_mem_cons.2 ⟨reads_header hname, fun l hl => ?_⟩
  obtain ⟨e, he, rfl⟩ := List.mem_map.1 hl
  exact reads_assign (hentries e he).1 (hentries e he).2

variable {s : Settings} {text : String}

def storeEntries (s : Settings) : List Entry :=
  [⟨"db_path", Literal.write s.path, .text s.path⟩,
    ⟨"pool_size", toString s.connections.toNat, .whole s.connections.toNat⟩]

def syncEntries (s : Settings) : List Entry :=
  [⟨"max_message_size", toString s.limit.toNat, .whole s.limit.toNat⟩,
    ⟨"request_timeout", Literal.write s.timeout.text, .text s.timeout.text⟩]

def loggingEntries (s : Settings) : List Entry :=
  [⟨"level", Literal.write s.level, .text s.level⟩,
    ⟨"json_format", flagText s.json, .boolean s.json⟩,
    ⟨"with_target", flagText s.targets, .boolean s.targets⟩]

/-- The lines of the settings file. -/
def lines (s : Settings) : List Line :=
  tableLines "store" s.storeEntries ++ blankLine :: tableLines "sync" s.syncEntries ++
    blankLine :: tableLines "logging" s.loggingEntries

theorem text_ok (h : s.text = .ok text) :
    s.limit.toNat < UInt64.size / 2 ∧ text.toList = s.lines.flatMap Prod.fst := by
  unfold Settings.text at h
  split at h
  · rename_i hlimit
    refine ⟨hlimit, ?_⟩
    obtain rfl := Except.ok.inj h
    have hlines : s.lines.flatMap Prod.fst =
        (tableText "store" (s.storeEntries.map fun e => (e.name, e.text))).toList ++ ['\n'] ++
          ((tableText "sync" (s.syncEntries.map fun e => (e.name, e.text))).toList ++ ['\n'] ++
            (tableText "logging" (s.loggingEntries.map fun e => (e.name, e.text))).toList) := by
      rw [toList_tableText, toList_tableText, toList_tableText]
      simp only [lines, List.flatMap_append, List.flatMap_cons, List.append_assoc]
      rfl
    rw [hlines, String.toList_intercalate, List.map_cons, List.map_cons, List.map_singleton,
      List.intercalate_cons_cons, List.intercalate_cons_cons, List.intercalate_singleton]
    rfl
  · cases h

theorem reads_lines (hconnections : s.connections ≠ 0) (hlimit : s.limit ≠ 0)
    (hmax : s.limit.toNat < UInt64.size / 2) : ∀ l ∈ s.lines, Reads l := by
  have hpool : 0 < s.connections.toNat ∧ s.connections.toNat < 0x8000000000000000 := by
    have hlt := s.connections.toNat_lt
    have hne : s.connections.toNat ≠ 0 := fun h => hconnections (UInt32.toNat_inj.1 h)
    omega
  have hsize : 0 < s.limit.toNat ∧ s.limit.toNat < 0x8000000000000000 := by
    have hne : s.limit.toNat ≠ 0 := fun h => hlimit (UInt64.toNat_inj.1 h)
    have hhalf : UInt64.size / 2 = 0x8000000000000000 := rfl
    omega
  have hstore : ∀ e ∈ s.storeEntries, BareKey e.name ∧ Legible e.text.toList e.item := by
    simp only [storeEntries, List.forall_mem_cons]
    exact ⟨⟨by decide, legible_text _⟩, ⟨by decide, legible_whole hpool.1 hpool.2⟩,
      List.forall_mem_nil _⟩
  have hsync : ∀ e ∈ s.syncEntries, BareKey e.name ∧ Legible e.text.toList e.item := by
    simp only [syncEntries, List.forall_mem_cons]
    exact ⟨⟨by decide, legible_whole hsize.1 hsize.2⟩, ⟨by decide, legible_text _⟩,
      List.forall_mem_nil _⟩
  have hlogging : ∀ e ∈ s.loggingEntries, BareKey e.name ∧ Legible e.text.toList e.item := by
    simp only [loggingEntries, List.forall_mem_cons]
    exact ⟨⟨by decide, legible_text _⟩, ⟨by decide, legible_flag _⟩, ⟨by decide, legible_flag _⟩,
      List.forall_mem_nil _⟩
  intro l hl
  simp only [lines, List.mem_append, List.mem_cons] at hl
  rcases hl with (hl | rfl | hl) | rfl | hl
  · exact reads_tableLines (by decide) hstore l hl
  · exact reads_blank
  · exact reads_tableLines (by decide) hsync l hl
  · exact reads_blank
  · exact reads_tableLines (by decide) hlogging l hl

/-- The fields that the file has. -/
def fields (s : Settings) : Fields :=
  [("store", .table .header (s.storeEntries.map fun e => (e.name, e.item))),
    ("sync", .table .header (s.syncEntries.map fun e => (e.name, e.item))),
    ("logging", .table .header (s.loggingEntries.map fun e => (e.name, e.item)))]

theorem ofStatements_lines (s : Settings) :
    Fields.ofStatements (s.lines.filterMap Prod.snd) = some s.fields := rfl

theorem asNumber_natCast {bound m : Nat} (hm : m < bound) : asNumber bound (.whole m) = some m := by
  have hbounds : 0 ≤ (m : Int) ∧ (m : Int) < (bound : Int) := by omega
  rw [asNumber, if_pos hbounds, Int.toNat_natCast]

theorem asDuration_text (d : Duration) : asDuration (.text d.text) = some d := by
  change (Duration.read d.text).toOption = some d
  rw [Duration.read_text]
  rfl

/-- The settings that items under their names give, whatever else they are. -/
theorem ofFields_items (path connections limit timeout level json targets : Item) :
    ofFields [("store", .table .header [("db_path", path), ("pool_size", connections)]),
        ("sync", .table .header [("max_message_size", limit), ("request_timeout", timeout)]),
        ("logging", .table .header
          [("level", level), ("json_format", json), ("with_target", targets)])] = (do
      return {
        path := ← asText path
        connections := .ofNat (← asNumber UInt32.size connections)
        limit := .ofNat (← asNumber UInt64.size limit)
        timeout := ← asDuration timeout
        level := ← asText level
        json := ← asFlag json
        targets := ← asFlag targets }) := rfl

theorem ofFields_fields (s : Settings) : ofFields s.fields = some s := by
  have hconnections : asNumber UInt32.size (.whole s.connections.toNat) =
      some s.connections.toNat := asNumber_natCast s.connections.toNat_lt
  have hlimit : asNumber UInt64.size (.whole s.limit.toNat) = some s.limit.toNat :=
    asNumber_natCast s.limit.toNat_lt
  refine (ofFields_items _ _ _ _ _ _ _).trans ?_
  rw [hconnections, hlimit, asDuration_text]
  change some { s with connections := .ofNat s.connections.toNat, limit := .ofNat s.limit.toNat } =
    some s
  rw [UInt32.ofNat_toNat, UInt64.ofNat_toNat]

/-- The text of settings that make sense gives the settings back. -/
theorem ofText_text (file : String) (hcheck : s.check = .ok ()) (h : s.text = .ok text) :
    ofText file text = .ok s := by
  obtain ⟨hmax, htext⟩ := text_ok h
  have hvalues : s.connections ≠ 0 ∧ s.limit ≠ 0 := by
    unfold check at hcheck
    split at hcheck
    · cases hcheck
    split at hcheck
    · cases hcheck
    · exact ⟨‹_›, ‹_›⟩
  have hstart : (s.lines.flatMap Prod.fst).head? ≠ some '\ufeff' := by
    have hhead : (s.lines.flatMap Prod.fst).head? = some '[' := rfl
    rw [hhead]
    decide
  have hdocument := document_of_lines (reads_lines hvalues.1 hvalues.2 hmax) hstart
  have hread : Fields.read text = some s.fields := by
    rw [Fields.read, htext, hdocument]
    exact ofStatements_lines s
  rw [ofText, hread, Option.bind_some, ofFields_fields]
  dsimp only
  rw [checked, hcheck]
  rfl

variable {t t' : Tree} {file : String}

/-- Settings that have a text are saved as far as the text can be written. -/
theorem save_eq (htext : s.text = .ok text) : save Tree.system file s t =
    ((t.changed (t.write file (Utf8.encode text))).1.mapError
        fun fault => .unwritable file fault.message,
      (t.changed (t.write file (Utf8.encode text))).2) := by
  rw [save, htext]
  rfl

/-- Settings that pass their check and were saved in a file are loaded from it as they were. -/
theorem load_save (hcheck : s.check = .ok ()) (hsave : save Tree.system file s t = (.ok (), t')) :
    load Tree.system file t' = (.ok s, t') := by
  cases htext : s.text with
  | error fault =>
    rw [save, htext] at hsave
    cases hsave
  | ok text =>
    cases hwrite : t.write file (Utf8.encode text) with
    | error fault =>
      rw [save_eq htext, hwrite] at hsave
      cases hsave
    | ok t₁ =>
      rw [save_eq htext, hwrite] at hsave
      obtain rfl : t₁ = t' := congrArg Prod.snd hsave
      have hload : load Tree.system file t₁ =
          (ofFile file ((t₁.read file).mapError FileFault.message), t₁) := rfl
      have hfile : ofFile file (.ok (Utf8.encode text)) = ofText file text := by
        simp only [ofFile, Utf8.decode_encode]
      rw [hload, Tree.read_write hwrite]
      exact congrArg (·, t₁) (hfile.trans (ofText_text file hcheck htext))

/-- A path with quotes of both kinds, a backslash, a line end and a letter of two bytes, and a time
down to nanoseconds. -/
theorem load_save_quotes :
    let s : Settings := {
      path := "C:\\\"é'\n'''\"", connections := 1, timeout := ⟨31557600, 1, by decide, by decide⟩,
      level := "WARN" }
    ∃ t', save Tree.system "settings.toml" s ∅ = (.ok (), t') ∧
      load Tree.system "settings.toml" t' = (.ok s, t') := by
  intro s
  have hcheck : s.check = .ok () := by
    have hlevel : (!levels.contains (lowercase s.level)) = false := by decide +kernel
    rw [check, if_neg (by decide), if_neg (by decide), if_neg (by decide), hlevel]
    rfl
  have hlocate : Tree.locate ∅ "settings.toml" = .ok ["settings.toml"] := by
    have hsteps : Tree.steps "settings.toml" = ["settings.toml"] := by decide +kernel
    have hfault : Tree.fault? "settings.toml" = none := by decide +kernel
    have hstart : Tree.start "settings.toml" = [] := by decide +kernel
    rw [Tree.locate, hfault, hsteps, hstart]
    rfl
  have hwrite (content : Bytes) : Tree.write ∅ "settings.toml" content =
      .ok (SortedMap.insert ∅ ["settings.toml"] (.file content)) := by
    have hname : Tree.namesFolder "settings.toml" = false := by decide +kernel
    have hnode : Tree.node? ∅ ["settings.toml"] = none := by decide +kernel
    rw [Tree.write, hlocate]
    dsimp only [bind, Except.bind]
    rw [hnode, hname]
    rfl
  cases htext : s.text with
  | error fault =>
    rw [Settings.text, if_pos (by decide)] at htext
    cases htext
  | ok text =>
    have hsave : save Tree.system "settings.toml" s ∅ =
        (.ok (), SortedMap.insert ∅ ["settings.toml"] (.file (Utf8.encode text))) := by
      rw [save_eq htext, hwrite]
      rfl
    exact ⟨_, hsave, load_save hcheck hsave⟩

end Settings

end AccountSync
