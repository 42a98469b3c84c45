import Mathlib.Data.List.Induction
import AccountSync.Proofs.Device.Meanwhile
/-!
Local writes land field by field. A field is a setting or a column of a row, and each one that is kept
in step has a place in one config that no other field shares (`LocalWrite.Field.place?_inj`): the
columns of the tables have different names, and no name of a column has a dot. So after local writes
each field has its last value, and everything else is as before (`Device.follow_by_field`).
-/

namespace AccountSync

variable {c : Cipher} {limit : Nat}

namespace LocalWrite

/-! ### Fields -/

/-- What a local write is about. -/
inductive Field where
  | setting (name : String)
  | cell (table : Table) (column : String) (row : String)
  deriving DecidableEq, Repr

def field : LocalWrite → Field
  | setting name _ => .setting name
  | cell table column row _ => .cell table column row

def value : LocalWrite → Option Bytes
  | setting _ value | cell _ _ _ value => value

/-- The config and the key that a field goes to, if it is kept in step. -/
def Field.place? (account : String) : Field → Option (Topic × String)
  | setting name =>
    if sharedSettings.contains name then some (.userProfile, s!"setting.{name}") else none
  | cell table column row => do
    LocalWrite.place? (← columnKind? table column) (row == account) row column

/-- A write goes to the place of its field. -/
theorem target?_eq (account : String) (w : LocalWrite) :
    w.target? account = (w.field.place? account).map fun p => (p.1, ⟨p.2, w.value⟩) := by
  cases w with
  | setting name value =>
    simp only [target?, field, Field.place?]
    split <;> rfl
  | cell table column row value =>
    simp only [target?, field, Field.place?]
    cases columnKind? table column with
    | none => rfl
    | some kind =>
      simp only [Option.bind_eq_bind, Option.bind_some]
      cases LocalWrite.place? kind (row == account) row column <;> rfl

/-! ### Places -/

/-- A key made of a name, with something in front of it if there is that. -/
def joined : Option String → String → String
  | none, name => name
  | some front, name => s!"{front}.{name}"

theorem toList_joined (front name : String) :
    (joined (some front) name).toList = front.toList ++ '.' :: name.toList := by
  simp [joined, toString]

/-- A part without a dot after the last dot can be told, and so can the one before it. -/
theorem dotted_inj {a a' b b' : List Char} (hb : '.' ∉ b) (hb' : '.' ∉ b')
    (h : a ++ '.' :: b = a' ++ '.' :: b') : a = a' ∧ b = b' := by
  rcases List.append_eq_append_iff.1 h with ⟨l, rfl, hl⟩ | ⟨l, rfl, hl⟩ <;>
    rcases l with _ | ⟨x, l⟩
  · exact ⟨(List.append_nil a).symm, (List.cons.inj hl).2⟩
  · obtain ⟨-, rfl⟩ := List.cons.inj hl
    simp at hb
  · exact ⟨List.append_nil a', (List.cons.inj hl).2.symm⟩
  · obtain ⟨-, rfl⟩ := List.cons.inj hl
    simp at hb'

theorem joined_inj {front front' : Option String} {name name' : String} (h : '.' ∉ name.toList)
    (h' : '.' ∉ name'.toList) (heq : joined front name = joined front' name') :
    front = front' ∧ name = name' := by
  cases front with
  | none =>
    cases front' with
    | none => exact ⟨rfl, heq⟩
    | some front' =>
      rw [show name = _ from heq, toList_joined] at h
      simp at h
  | some front =>
    cases front' with
    | none =>
      rw [← show _ = name' from heq, toList_joined] at h'
      simp at h'
    | some front' =>
      have hlist := congrArg String.toList heq
      rw [toList_joined, toList_joined] at hlist
      obtain ⟨hfront, hname⟩ := dotted_inj h h' hlist
      exact ⟨congrArg some (String.toList_inj.1 hfront), String.toList_inj.1 hname⟩

/-- The columns that are kept in step. -/
def columns : List (Table × String × Column) :=
  [(.profile, "name", .portrait), (.profile, "profilePictureUrl", .portrait),
    (.profile, "profileEncryptionKey", .portrait), (.contact, "isApproved", .relation),
    (.contact, "isBlocked", .relation), (.contact, "didApproveMe", .relation),
    (.thread, "shouldBeVisible", .display), (.thread, "pinnedPriority", .display),
    (.thread, "markedAsUnread", .reading)]

theorem mem_columns {table : Table} {column : String} {kind : Column}
    (h : columnKind? table column = some kind) : (table, column, kind) ∈ columns := by
  cases table <;> simp only [columnKind?] at h <;> split at h
  · obtain rfl := Option.some.inj h
    simp_all [columns]
  · cases h
  · obtain rfl := Option.some.inj h
    simp_all [columns]
  · cases h
  · obtain rfl := Option.some.inj h
    simp_all [columns]
  · split at h
    · obtain rfl := Option.some.inj h
      simp_all [columns]
    · cases h

/-- A column is of one table. -/
theorem columns_inj : ∀ x ∈ columns, ∀ y ∈ columns, x.2.1 = y.2.1 → x = y := by decide

theorem dot_notMem_column : ∀ x ∈ columns, '.' ∉ x.2.1.toList := by decide

theorem dot_notMem_setting : ∀ name ∈ sharedSettings, '.' ∉ name.toList := by decide

namespace Field

variable {account name : String} {f g : Field} {topic : Topic} {key : String}
  {front : Option String}

/-- The place of a field: a config, and the parts of the key in it. -/
inductive At (account : String) : Field → Topic → Option String → String → Prop where
  | setting {name : String} : name ∈ sharedSettings →
      At account (.setting name) .userProfile (some "setting") name
  | own {table : Table} {column : String} : (table, column, .portrait) ∈ columns →
      At account (.cell table column account) .userProfile none column
  | note {table : Table} {column : String} : (table, column, .display) ∈ columns →
      At account (.cell table column account) .userProfile (some "noteToSelf") column
  | contact {table : Table} {column row : String} {kind : Column} : (table, column, kind) ∈ columns →
      At account (.cell table column row) .contacts (some row) column
  | reading {table : Table} {column row : String} : (table, column, .reading) ∈ columns →
      At account (.cell table column row) .convoInfoVolatile (some row) column

theorem At.dot_notMem (h : f.At account topic front name) : '.' ∉ name.toList := by
  cases h with
  | setting hname => exact dot_notMem_setting _ hname
  | own hmem | note hmem | contact hmem | reading hmem => exact dot_notMem_column _ hmem

/-- A place is that of one field. -/
theorem At.unique (hf : f.At account topic front name) (hg : g.At account topic front name) :
    f = g := by
  have hsame : ∀ {table table' : Table} {row : String} {kind kind' : Column},
      (table, name, kind) ∈ columns → (table', name, kind') ∈ columns →
        Field.cell table name row = .cell table' name row := fun h h' => by
    rw [(Prod.mk.inj (columns_inj _ h _ h' rfl)).1]
  cases hf with
  | setting =>
    generalize hfront : some "setting" = front at hg
    cases hg with
    | setting => rfl
    | own | note => exact absurd hfront (by decide)
  | own hmem => cases hg with | own hmem' => exact hsame hmem hmem'
  | note hmem =>
    generalize hfront : some "noteToSelf" = front at hg
    cases hg with
    | note hmem' => exact hsame hmem hmem'
    | own | setting => exact absurd hfront (by decide)
  | contact hmem => cases hg with | contact hmem' => exact hsame hmem hmem'
  | reading hmem => cases hg with | reading hmem' => exact hsame hmem hmem'

theorem exists_at (h : f.place? account = some (topic, key)) :
    ∃ front name, f.At account topic front name ∧ key = joined front name := by
  cases f with
  | setting name =>
    simp only [place?] at h
    split at h
    · rename_i hname
      cases h
      exact ⟨_, _, .setting (List.contains_iff_mem.1 hname), String.toList_inj.1
        (by simp [toList_joined, toString])⟩
    · cases h
  | cell table column row =>
    obtain ⟨kind, hkind, h⟩ := Option.bind_eq_some_iff.1 h
    have hmem := mem_columns hkind
    by_cases hrow : row = account
    · subst hrow
      rw [beq_self_eq_true] at h
      cases kind <;> cases h
      · exact ⟨_, _, .own hmem, rfl⟩
      · exact ⟨_, _, .note hmem, String.toList_inj.1 (by simp [toList_joined, toString])⟩
      · exact ⟨_, _, .reading hmem, rfl⟩
    · rw [beq_false_of_ne hrow] at h
      cases kind <;> cases h
      · exact ⟨_, _, .contact hmem, rfl⟩
      · exact ⟨_, _, .contact hmem, rfl⟩
      · exact ⟨_, _, .contact hmem, rfl⟩
      · exact ⟨_, _, .reading hmem, rfl⟩

/-- No two fields share a place. -/
theorem place?_inj {p : Topic × String} (hf : f.place? account = some p)
    (hg : g.place? account = some p) : f = g := by
  obtain ⟨topic, key⟩ := p
  obtain ⟨front, name, hfat, rfl⟩ := exists_at hf
  obtain ⟨front', name', hgat, hkey⟩ := exists_at hg
  obtain ⟨rfl, rfl⟩ := joined_inj hfat.dot_notMem hgat.dot_notMem hkey
  exact hfat.unique hgat

end Field

/-! ### Changes -/

variable {account : String} {topic : Topic} {key : String}

/-- The last write of a field. -/
def last? (f : Field) (writes : List LocalWrite) : Option LocalWrite :=
  writes.reverse.find? (·.field = f)

/-- The changes that writes make to one config, in order. -/
def changesOf (account : String) (topic : Topic) (writes : List LocalWrite) : List Change :=
  writes.filterMap fun w => (w.target? account).bind fun p => if p.1 = topic then some p.2 else none

theorem changesOf_append (account : String) (topic : Topic) (writes others : List LocalWrite) :
    changesOf account topic (writes ++ others) =
      changesOf account topic writes ++ changesOf account topic others :=
  List.filterMap_append

theorem changesOf_of_target {change : Change} {w : LocalWrite}
    (h : w.target? account = some (topic, change)) : changesOf account topic [w] = [change] := by
  simp [changesOf, h]

theorem changesOf_of_forall_ne {w : LocalWrite}
    (h : ∀ change, w.target? account ≠ some (topic, change)) : changesOf account topic [w] = [] := by
  rw [changesOf, List.filterMap_eq_nil_iff]
  intro w' hw'
  obtain rfl := List.mem_singleton.1 hw'
  cases htarget : w'.target? account with
  | none => rfl
  | some p => exact if_neg fun htopic => h p.2 (htarget.trans (by rw [← htopic]))

/-- The changes give a key the value of the last write that goes to it. -/
theorem overlay_changesOf (get : String → Option Bytes) (writes : List LocalWrite) :
    Change.overlay get (changesOf account topic writes) key =
      match writes.reverse.find? (fun w => w.field.place? account = some (topic, key)) with
      | some w => w.value
      | none => get key := by
  induction writes using List.reverseRecOn with
  | nil => rfl
  | append_singleton writes w ih =>
    rw [changesOf_append, Change.overlay_append, List.reverse_append]
    generalize Change.overlay get (changesOf account topic writes) = get' at ih ⊢
    by_cases hplace : w.field.place? account = some (topic, key)
    · have htarget := target?_eq account w
      rw [hplace] at htarget
      simp [changesOf_of_target htarget, hplace, Change.overlay]
    · have hkeep : Change.overlay get' (changesOf account topic [w]) key = get' key := by
        by_cases htopic : ∃ change, w.target? account = some (topic, change)
        · obtain ⟨change, htarget⟩ := htopic
          have hkey : key ≠ change.key := by
            rintro rfl
            rw [target?_eq] at htarget
            obtain ⟨p, hp, heq⟩ := Option.map_eq_some_iff.1 htarget
            cases heq
            exact hplace hp
          rw [changesOf_of_target htarget]
          exact Function.update_of_ne hkey change.value get'
        · rw [changesOf_of_forall_ne fun change htarget => htopic ⟨change, htarget⟩]
          rfl
      rw [hkeep, ih]
      simp [hplace]

end LocalWrite

/-! ### Copies -/

namespace Held

open LocalWrite

variable {env : Env} {account : String} {h h' : Held} {r : Replica} {topic : Topic}

/-- A write shows in a copy as the change that it makes, if it makes one there. -/
theorem overlaid_follow {w : LocalWrite}
    (hdefault : ∀ t, (env.handler t).applyLocal = Handler.silent.applyLocal)
    (hfollow : h.follow env account w = some h') (hr : h.Has account topic r) :
    ∃ r', h'.Has account topic r' ∧ r.Overlaid (changesOf account topic [w]) r' := by
  unfold follow at hfollow
  split at hfollow
  · rename_i htarget
    obtain rfl := Option.some.inj hfollow
    rw [changesOf_of_forall_ne fun change hchange => by rw [htarget] at hchange; cases hchange]
    exact ⟨r, hr, .refl r⟩
  · rename_i topic' change htarget
    by_cases htopic : topic' = topic
    · subst htopic
      rw [changesOf_of_target htarget]
      rcases use_eq_some hfollow with ⟨-, hnone⟩ | ⟨q, r', k, hq, hplan, hcopies, -⟩
      · exact absurd hr (hnone r)
      · obtain rfl := hq.unique hr
        have hchanged : r' = (q.change change).2 := by
          rw [Plan.follow, hdefault] at hplan
          exact (Prod.mk.inj (Option.some.inj hplan)).1.symm
        subst hchanged
        refine ⟨_, ?_, (q.overlaid_change change).keep k⟩
        rw [Has, hcopies]
        exact SortedMap.find?_insert_self _ _ _
    · rw [changesOf_of_forall_ne fun change' hchange => by
        rw [htarget] at hchange
        exact htopic (Prod.mk.inj (Option.some.inj hchange)).1]
      refine ⟨r, ?_, .refl r⟩
      exact (use_frame hfollow fun heq => htopic (CopyKey.mk.inj heq).2.symm).1.trans hr

/-- Writes show in a copy as the changes that they make there, one after the other. -/
theorem overlaid_followAll (hdefault : ∀ t, (env.handler t).applyLocal = Handler.silent.applyLocal) :
    ∀ {writes : List LocalWrite} {h : Held} {r : Replica},
      writes.foldlM (fun h w => h.follow env account w) h = some h' → h.Has account topic r →
        ∃ r', h'.Has account topic r' ∧ r.Overlaid (changesOf account topic writes) r'
  | [], h, r, hfollow, hr => by
    obtain rfl := Option.some.inj hfollow
    exact ⟨r, hr, .refl r⟩
  | w :: writes, h, r, hfollow, hr => by
    rw [List.foldlM_cons, Option.bind_eq_bind, Option.bind_eq_some_iff] at hfollow
    obtain ⟨h₁, hone, hrest⟩ := hfollow
    obtain ⟨r₁, hr₁, hfirst⟩ := overlaid_follow hdefault hone hr
    obtain ⟨r', hr', hlater⟩ := overlaid_followAll hdefault hrest hr₁
    rw [← List.singleton_append, changesOf_append]
    exact ⟨r', hr', hfirst.trans hlater⟩

/-- Copies of other accounts are left as they are. -/
theorem followAll_frame {key : CopyKey} (hkey : key.account ≠ account) :
    ∀ {writes : List LocalWrite} {h : Held},
      writes.foldlM (fun h w => h.follow env account w) h = some h' →
        h'.copies.find? key = h.copies.find? key
  | [], h, hfollow => by
    obtain rfl := Option.some.inj hfollow
    rfl
  | w :: writes, h, hfollow => by
    rw [List.foldlM_cons, Option.bind_eq_bind, Option.bind_eq_some_iff] at hfollow
    obtain ⟨h₁, hone, hrest⟩ := hfollow
    refine (followAll_frame hkey hrest).trans ?_
    unfold follow at hone
    split at hone
    · obtain rfl := Option.some.inj hone
      rfl
    · exact (use_frame hone fun heq => hkey (congrArg CopyKey.account heq)).1

end Held

/-! ### Writes that are not kept in step -/

namespace Write

variable {α : Type} {account : String}

theorem followOne_of_unsynced {w : LocalWrite} (h : w.target? account = none) (env : Env) :
    followOne env account w = pure none := by
  rw [followOne, h]

/-- What comes after following writes cannot tell whether ones that make no change were among them. -/
theorem each_followOne_filter (env : Env) (account : String) :
    ∀ (writes : List LocalWrite) (k : List Followed → Write α),
      (Step.each (followOne env account) (writes.filter fun w => (w.target? account).isSome) >>=
          fun l => k (l.filterMap id)) =
        Step.each (followOne env account) writes >>= fun l => k (l.filterMap id)
  | [], _ => rfl
  | w :: writes, k => by
    cases htarget : w.target? account with
    | none =>
      rw [List.filter_cons_of_neg (by simp [htarget]), each_followOne_filter env account writes k,
        Step.each, followOne_of_unsynced htarget]
      simp
    | some target =>
      rw [List.filter_cons_of_pos (by simp [htarget]), Step.each, Step.each]
      simp only [bind_assoc, pure_bind]
      congr 1
      funext b
      cases b with
      | none => simpa using each_followOne_filter env account writes k
      | some b => simpa using each_followOne_filter env account writes fun l => k (b :: l)

/-- What comes after following writes. -/
def finishFollow (env : Env) (account : String) (followed : List Followed) : Write Bool := do
  if followed.any (·.needsPush) then schedule env.listener account
  changeStats (·.save (followed.countP (·.saved)))
  return followed.any (·.changed)

theorem follow_eq {env : Env} (hid : env.identity = some account) (writes : List LocalWrite) :
    follow env writes = Step.each (followOne env account) writes >>= fun l =>
      finishFollow env account (l.filterMap id) := by
  unfold follow
  rw [hid]
  rfl

/-- Writes that make no change have no effect at all. -/
theorem follow_filter {env : Env} (hid : env.identity = some account) (writes : List LocalWrite) :
    follow env (writes.filter fun w => (w.target? account).isSome) = follow env writes := by
  rw [follow_eq hid, follow_eq hid, each_followOne_filter]

end Write

namespace Device

open LocalWrite

/-- Local writes that commit give each field that they are about its last value, and leave all other
keys and the copies of other accounts as they were. No two fields share a key, and writes of what is not
kept in step have no effect. -/
theorem follow_by_field {env : Env} {account : String} {d d' : Device} {writes : List LocalWrite}
    {changed : Bool} {rs : Topic → Replica} (henv : env.engine = .plain c limit)
    (hid : env.identity = some account)
    (hdefault : ∀ t, (env.handler t).applyLocal = Handler.silent.applyLocal)
    (hloaded : ∀ t, d.held.Has account t (rs t))
    (hrun : d.write (Write.follow env writes) = (.ok changed, d')) :
    (∃ rs' : Topic → Replica, (∀ t, d'.held.Has account t (rs' t)) ∧
      (∀ f topic key, f.place? account = some (topic, key) → ∀ w, last? f writes = some w →
        (rs' topic).get key = w.value) ∧
      ∀ topic key, (∀ w ∈ writes, w.field.place? account ≠ some (topic, key)) →
        (rs' topic).get key = (rs topic).get key) ∧
    (∀ key, key.account ≠ account → d'.copies.find? key = d.copies.find? key) ∧
    (∀ (f g : Field) p, f.place? account = some p → g.place? account = some p → f = g) ∧
    d.write (Write.follow env (writes.filter fun w => (w.target? account).isSome)) =
      (.ok changed, d') := by
  have hfollow : writes.foldlM (fun h w => h.follow env account w) d.held = some d'.held :=
    (Write.leaves_follow henv hid writes d.start).symm.trans
      (write_commits_iff.1 ⟨⟨changed, congrArg Prod.fst hrun⟩, by rw [hrun]⟩)
  choose rs' hrs' hover using fun t => Held.overlaid_followAll hdefault hfollow (hloaded t)
  have hget : ∀ topic key, (rs' topic).get key = _ := fun topic key =>
    (congrFun (hover topic).get key).trans (overlay_changesOf _ writes)
  refine ⟨⟨rs', hrs', fun f topic key hplace w hlast => ?_, fun topic key hnone => ?_⟩,
    fun key hkey => Held.followAll_frame hkey hfollow,
    fun f g p hf hg => Field.place?_inj hf hg, by rw [Write.follow_filter hid, hrun]⟩
  · -- Only writes of the field go to its place.
    have hsame : (fun w : LocalWrite => decide (w.field.place? account = some (topic, key))) =
        fun w => decide (w.field = f) := by
      funext w
      refine decide_eq_decide.2 ⟨fun hw => Field.place?_inj hw hplace, ?_⟩
      rintro rfl
      exact hplace
    rw [hget, hsame, show List.find? _ _ = some w from hlast]
  · rw [hget, List.find?_eq_none.2 fun w hw => by simpa using hnone w (List.mem_reverse.1 hw)]

/-- A name and then none, of somebody whose row has a dot; the own name; and a write that is not kept in
step. -/
theorem follow_by_field_dotted_row :
    let env := Env.bare .xchacha20Poly1305 Replica.defaultLimit "05"
    let writes : List LocalWrite := [.cell .profile "name" "05.a" (some [1]),
      .cell .profile "name" "05" (some [2]), .setting "theme" (some [3]),
      .cell .profile "name" "05.a" none, .cell .thread "markedAsUnread" "05" (some [4])]
    let d := ({} : Device).reload env "05" (List.replicate 32 0)
    ∃ (d' : Device) (rs' : Topic → Replica), d.write (Write.follow env writes) = (.ok true, d') ∧
      (∀ t, d'.held.Has "05" t (rs' t)) ∧
      (rs' .contacts).get "05.a.name" = none ∧ (rs' .userProfile).get "name" = some [2] ∧
      (rs' .convoInfoVolatile).get "05.markedAsUnread" = some [4] ∧
      (rs' .userProfile).get "setting.theme" = none := by
  intro env writes d
  have hcommits : (d.write (Write.follow env writes)).1 = .ok true := by decide +kernel
  have hloaded : ∀ t, d.held.Has "05" t (Replica.fresh t default) := by
    unfold Held.Has
    intro t
    cases t <;> decide +kernel
  have henv : env.engine = .plain .xchacha20Poly1305 Replica.defaultLimit := rfl
  have hid : env.identity = some "05" := rfl
  obtain ⟨⟨rs', hrs', hlast, hother⟩, -⟩ :=
    follow_by_field henv hid (fun _ => rfl) hloaded (Prod.ext hcommits rfl)
  refine ⟨_, rs', Prod.ext hcommits rfl, hrs', ?_, ?_, ?_, ?_⟩
  · exact hlast (.cell .profile "name" "05.a") .contacts _ (by decide +kernel) _ rfl
  · exact hlast (.cell .profile "name" "05") .userProfile _ (by decide +kernel) _ rfl
  · exact hlast (.cell .thread "markedAsUnread" "05") .convoInfoVolatile _ (by decide +kernel) _ rfl
  · rw [hother .userProfile "setting.theme" (by decide +kernel)]
    rfl

end Device

end AccountSync
