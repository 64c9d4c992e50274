import Mathlib.Data.List.Induction
import Vigil.LineMap
import Vigil.Proofs.Build.Placed

/-!
# Vigil.Proofs.Build.Landmarks — line maps are stable sorts

The landmarks of a file are what was registered for it, ordered by line and column;
those that start at one place keep the order of their registration (`Arranges`).
That is shown of one insertion and carried over every sequence of calls. A landmark
is pushed at the end and swapped back from there; where the others are in order this
inserts it before the first that starts after it (`toList_pushOnto`). The first
statement of a line is then the earliest one of those that start leftmost on it.
-/

namespace Vigil

namespace Landmark

variable {line : Nat} {m : Landmark} {l : List Landmark}

/-- `a` starts no later than `b`. -/
def Leads (a b : Landmark) : Prop :=
  a.span.startLine < b.span.startLine ∨
    a.span.startLine = b.span.startLine ∧ a.span.startCol ≤ b.span.startCol

/-- Whether the statement starts at this place. -/
def startsAt (line col : Nat) (m : Landmark) : Bool :=
  m.span.startLine == line && m.span.startCol == col

/-- Whether the statement starts on the line, and none of `marks` left of it there. -/
def isLeftmost (marks : List Landmark) (line : Nat) (m : Landmark) : Bool :=
  m.span.startLine == line &&
    marks.all fun x => x.span.startLine != line || decide (m.span.startCol ≤ x.span.startCol)

theorem startsAt_iff {col : Nat} :
    m.startsAt line col = true ↔ m.span.startLine = line ∧ m.span.startCol = col := by
  simp [startsAt]

theorem isLeftmost_iff {marks : List Landmark} :
    m.isLeftmost marks line = true ↔ m.span.startLine = line ∧
      ∀ x ∈ marks, x.span.startLine = line → m.span.startCol ≤ x.span.startCol := by
  simp [isLeftmost, or_iff_not_imp_left]

theorem Leads.of_startsAfter {a b : Landmark} (h : b.span.startsAfter a.span = true) :
    a.Leads b := by
  simp only [Span.startsAfter, Span.before, Bool.or_eq_true, Bool.and_eq_true,
    decide_eq_true_eq] at h
  unfold Leads
  omega

theorem Leads.of_not_startsAfter {a b : Landmark} (h : ¬ a.span.startsAfter b.span = true) :
    a.Leads b := by
  simp only [Span.startsAfter, Span.before, Bool.or_eq_true, Bool.and_eq_true,
    decide_eq_true_eq] at h
  unfold Leads
  omega

theorem Leads.trans {a b c : Landmark} (h : a.Leads b) (h' : b.Leads c) : a.Leads c := by
  unfold Leads at *
  omega

/-- What starts after `m`, or after such a landmark, starts at another place. -/
theorem startsAt_of_startsAfter {x y : Landmark} {col : Nat} (hm : m.startsAt line col = true)
    (hx : x.span.startsAfter m.span = true) (hy : x.Leads y) :
    y.startsAt line col = false := by
  rw [← Bool.not_eq_true, startsAt_iff]
  rw [startsAt_iff] at hm
  simp only [Span.startsAfter, Span.before, Bool.or_eq_true, Bool.and_eq_true,
    decide_eq_true_eq] at hx
  unfold Leads at hy
  omega

/-! ## One insertion -/

/-- Put a landmark before the first that starts after it. -/
def insert (m : Landmark) : List Landmark → List Landmark
  | [] => [m]
  | x :: rest => if x.span.startsAfter m.span then m :: x :: rest else x :: insert m rest

theorem insert_eq_concat (h : ∀ x ∈ l, x.span.startsAfter m.span = false) :
    m.insert l = l ++ [m] := by
  induction l with
  | nil => rfl
  | cons x rest ih =>
    obtain ⟨hx, hrest⟩ := List.forall_mem_cons.mp h
    rw [insert, if_neg (by simp [hx]), ih hrest]
    rfl

theorem insert_concat {x : Landmark} (hx : x.span.startsAfter m.span = true) (l : List Landmark) :
    m.insert (l ++ [x]) = m.insert l ++ [x] := by
  induction l with
  | nil => simp [insert, hx]
  | cons y rest ih =>
    rw [List.cons_append, insert, insert, ih]
    split <;> rfl

/-- What `x` leads to starts no earlier than `x`. -/
theorem Leads.not_startsAfter {x y : Landmark} (h : y.Leads x)
    (hx : x.span.startsAfter m.span = false) : y.span.startsAfter m.span = false := by
  simp only [Span.startsAfter, Span.before, Bool.or_eq_false_iff, Bool.and_eq_false_iff,
    decide_eq_false_iff_not] at hx ⊢
  unfold Leads at h
  omega

/-- Swapping `m` back from the end of a list in order inserts it there; what stands
after it stays. -/
theorem toList_swapBack {before after : List Landmark} {marks : Array Landmark}
    (hmarks : marks.toList = before ++ m :: after) (hsorted : before.Pairwise Leads)
    (hi : before.length < marks.size) :
    (swapBack marks before.length hi).toList = m.insert before ++ after := by
  induction before using List.reverseRecOn generalizing marks after with
  | nil =>
    rw [swapBack.eq_def]
    exact hmarks
  | append_singleton before x ih =>
    obtain ⟨hbefore, -, hlead⟩ := List.pairwise_append.mp hsorted
    have hx : marks[before.length]? = some x := by
      rw [← Array.getElem?_toList, hmarks]
      simp
    have hm : marks[before.length + 1]? = some m := by
      rw [← Array.getElem?_toList, hmarks]
      simp
    obtain ⟨_, hx⟩ := Array.getElem?_eq_some_iff.mp hx
    obtain ⟨_, hm⟩ := Array.getElem?_eq_some_iff.mp hm
    simp only [List.length_append, List.length_singleton]
    rw [swapBack, hx, hm]
    split
    case isTrue hafter =>
      rw [insert_concat hafter, List.append_assoc]
      refine ih ?_ hbefore _
      rw [Array.swap_def, Array.toList_set, Array.toList_set, hx, hm, hmarks]
      simp
    case isFalse hafter =>
      -- in order as they are, none of the others starts after `m` either
      rw [Bool.not_eq_true] at hafter
      rw [hmarks, insert_eq_concat, List.append_assoc _ [m]]
      · rfl
      · intro y hy
        rcases List.mem_append.mp hy with hy | hy
        · exact (hlead y hy x List.mem_cons_self).not_startsAfter hafter
        · exact List.mem_singleton.mp hy ▸ hafter

theorem toList_pushOnto (m : Landmark) {marks : Array Landmark}
    (h : marks.toList.Pairwise Leads) : (m.pushOnto marks).toList = m.insert marks.toList := by
  have hswap := @toList_swapBack m marks.toList [] (marks.push m) (by simp) h (by simp)
  rwa [List.append_nil] at hswap

theorem insert_perm (m : Landmark) : ∀ l : List Landmark, (m.insert l).Perm (m :: l)
  | [] => .refl _
  | x :: rest => by
    unfold insert
    split
    · exact .refl _
    · exact ((insert_perm m rest).cons x).trans (.swap m x rest)

theorem insert_sorted (m : Landmark) (h : l.Pairwise Leads) : (m.insert l).Pairwise Leads := by
  induction h with
  | nil => exact List.pairwise_singleton _ _
  | @cons x rest hx hrest ih =>
    unfold insert
    split
    case isTrue hafter =>
      have hmx : m.Leads x := .of_startsAfter hafter
      refine .cons (fun y hy => ?_) (.cons hx hrest)
      rcases List.mem_cons.mp hy with rfl | hy
      · exact hmx
      · exact hmx.trans (hx y hy)
    case isFalse hafter =>
      refine .cons (fun y hy => ?_) ih
      rcases List.mem_cons.mp ((insert_perm m rest).mem_iff.mp hy) with rfl | hy
      · exact .of_not_startsAfter hafter
      · exact hx y hy

/-- The new landmark is the last of those that start where it does. -/
theorem filter_insert (m : Landmark) (line col : Nat) (h : l.Pairwise Leads) :
    (m.insert l).filter (startsAt line col) = (l ++ [m]).filter (startsAt line col) := by
  induction h with
  | nil => rfl
  | @cons x rest hx hrest ih =>
    unfold insert
    split
    case isTrue hafter =>
      rw [List.filter_append]
      cases hm : m.startsAt line col with
      | false => simp [hm]
      | true =>
        -- nothing from `x` on starts where `m` does
        have hnone : (x :: rest).filter (startsAt line col) = [] := by
          rw [List.filter_eq_nil_iff]
          intro y hy
          have hxy : x.Leads y := by
            rcases List.mem_cons.mp hy with rfl | hy
            · exact .inr ⟨rfl, Nat.le_refl _⟩
            · exact hx y hy
          simp [startsAt_of_startsAfter hm hafter hxy]
        rw [List.filter_cons_of_pos hm, hnone, List.filter_cons_of_pos hm]
        rfl
    case isFalse =>
      rw [List.cons_append, List.filter_cons, List.filter_cons, ih]

/-! ## Stable order -/

/-- The landmarks after one more. -/
def pushed (kept : List Landmark) (m : Landmark) : List Landmark :=
  (m.pushOnto kept.toArray).toList

/-- `kept` holds the registered `marks`, ordered by where they start, and those that
start at one place in the order of their registration. -/
structure Arranges (marks kept : List Landmark) : Prop where
  perm : kept.Perm marks
  sorted : kept.Pairwise Leads
  stable : ∀ line col, kept.filter (startsAt line col) = marks.filter (startsAt line col)

namespace Arranges

variable {marks kept : List Landmark}

theorem nil : Arranges [] [] := ⟨.refl _, .nil, fun _ _ => rfl⟩

/-- One more is registered. -/
theorem push (h : Arranges marks kept) (m : Landmark) :
    Arranges (marks ++ [m]) (pushed kept m) := by
  rw [pushed, toList_pushOnto m h.sorted]
  refine ⟨?_, insert_sorted m h.sorted, fun line col => ?_⟩
  · calc
      (m.insert kept).Perm (m :: kept) := insert_perm m kept
      _ |>.Perm (m :: marks) := h.perm.cons m
      _ |>.Perm (marks ++ [m]) := (List.perm_append_singleton m marks).symm
  · rw [filter_insert m line col h.sorted, List.filter_append, h.stable, List.filter_append]

theorem pushAll (h : Arranges marks kept) (new : List Landmark) :
    Arranges (new.foldl (fun l m => l ++ [m]) marks) (new.foldl pushed kept) := by
  induction new generalizing marks kept with
  | nil => exact h
  | cons m rest ih => exact ih (h.push m)

/-- The first landmark on a line starts leftmost there. -/
theorem isLeftmost_of_find? (h : Arranges marks kept)
    (hm : kept.find? (·.span.startLine == line) = some m) :
    m.isLeftmost marks line = true := by
  obtain ⟨hline, before, after, rfl, hbefore⟩ := List.find?_eq_some_iff_append.mp hm
  rw [beq_iff_eq] at hline
  rw [isLeftmost_iff]
  refine ⟨hline, fun x hx hxline => ?_⟩
  rcases List.mem_append.mp (h.perm.mem_iff.mpr hx) with hx | hx
  · exact absurd (beq_iff_eq.mpr hxline) (by simpa using hbefore x hx)
  rcases List.mem_cons.mp hx with rfl | hx
  · exact Nat.le_refl _
  · have hmx : m.Leads x := (List.pairwise_cons.mp (List.pairwise_append.mp h.sorted).2.1).1 x hx
    unfold Leads at hmx
    omega

/-- The first landmark on a line is the earliest registered of the leftmost there. -/
theorem find?_line (h : Arranges marks kept) (line : Nat) :
    kept.find? (·.span.startLine == line) = marks.find? (isLeftmost marks line) := by
  cases hm : kept.find? (·.span.startLine == line) with
  | none =>
    rw [List.find?_eq_none] at hm
    refine (List.find?_eq_none.mpr fun x hx hleft => ?_).symm
    exact hm x (h.perm.mem_iff.mpr hx) (beq_iff_eq.mpr (isLeftmost_iff.mp hleft).1)
  | some m =>
    -- both sides pick the first of those that start where `m` does
    have hleft := isLeftmost_iff.mp (h.isLeftmost_of_find? hm)
    have hkept : kept.find? (startsAt line m.span.startCol) = some m := by
      obtain ⟨-, before, after, hsplit, hbefore⟩ := List.find?_eq_some_iff_append.mp hm
      refine List.find?_eq_some_iff_append.mpr
        ⟨startsAt_iff.mpr ⟨hleft.1, rfl⟩, before, after, hsplit, fun x hx => ?_⟩
      have hxline := hbefore x hx
      simp only [Bool.not_eq_true', beq_eq_false_iff_ne] at hxline
      rw [Bool.not_eq_true', ← Bool.not_eq_true, startsAt_iff]
      exact fun hat => hxline hat.1
    have hmarks : marks.find? (startsAt line m.span.startCol) = some m := by
      rw [← List.head?_filter, ← h.stable, List.head?_filter, hkept]
    rw [← hmarks]
    have hmem : m ∈ marks := List.mem_of_find?_eq_some hmarks
    rw [← List.head?_filter, ← List.head?_filter]
    refine congrArg List.head? (List.filter_congr fun x hx => ?_)
    rw [Bool.eq_iff_iff, startsAt_iff, isLeftmost_iff]
    constructor
    · rintro ⟨hxline, hcol⟩
      exact ⟨hxline, fun y hy hyline => hcol ▸ hleft.2 y hy hyline⟩
    · rintro ⟨hxline, hmin⟩
      exact ⟨hxline, Nat.le_antisymm (hmin m hmem hleft.1) (hleft.2 x hx hxline)⟩

end Arranges

end Landmark

/-- The landmarks a script is registered with. -/
def Script.landmarks (s : Script) : List Landmark := s.placed.map fun p => ⟨p.1, p.2⟩

namespace LineMaps

/-! ## Histories -/

open Landmark (pushed)

/-- What is asked of the line maps. -/
inductive Call where
  | enable
  | disable
  | track (file : String)
  | record (file : String) (mark : Landmark)
  | build (u : Doc.Unit) (firstStmt : StmtId)

def perform (m : LineMaps) : Call → LineMaps
  | .enable => m.enable
  | .disable => .off
  | .track file => m.track file
  | .record file mark => m.record file mark
  | .build u firstStmt => m.recordScript (Script.build u firstStmt)

/-- The line maps after these calls. -/
def after (calls : List Call) : LineMaps := calls.foldl perform .off

/-- Landmarks of a file; `none` when it is not tracked, and nothing at all when
there is no tracking. -/
abbrev Register := Option (Option (List Landmark))

/-- What one call means for a file when `add` takes in a landmark. -/
def note (file : String) (add : List Landmark → Landmark → List Landmark) (r : Register) :
    Call → Register
  | .enable => some (r.getD none)
  | .disable => none
  | .track name => if name = file then r.map fun l => some (l.getD []) else r
  | .record name mark => if name = file then r.map (Option.map (add · mark)) else r
  | .build u firstStmt =>
    if u.file? = some file then
      r.map fun l => some ((Script.build u firstStmt).landmarks.foldl add (l.getD []))
    else r

/-- What was registered for a file by these calls, in this order. -/
def registered (file : String) (calls : List Call) : Register :=
  calls.foldl (note file fun marks mark => marks ++ [mark]) none

/-- How the maps have a file. -/
def register (m : LineMaps) (file : String) : Register :=
  m.files.map fun files => (files.lookup file).map (·.toList)

theorem lookup_update (file name : String) (g : Array Landmark → Array Landmark) :
    ∀ files : List (String × Array Landmark), (update name g files).lookup file =
      if name = file then (files.lookup file).map g else files.lookup file
  | [] => by simp [update]
  | (name', marks) :: rest => by
    have ih := lookup_update file name g rest
    grind [update]

theorem register_track (m : LineMaps) (file name : String) :
    (m.track name).register file =
      if name = file then (m.register file).map fun l => some (l.getD []) else m.register file := by
  unfold track register
  cases hfiles : m.files with
  | none => simp [hfiles]
  | some files => cases hlookup : files.lookup name <;> grind

theorem register_record (m : LineMaps) (file name : String) (mark : Landmark) :
    (m.record name mark).register file =
      if name = file then (m.register file).map (Option.map (pushed · mark))
      else m.register file := by
  unfold record register
  cases m.files with
  | none => simp
  | some files =>
    simp only [Option.map_some, lookup_update]
    split
    · rw [Option.map_map, Option.map_map]
      rfl
    · rfl

/-- Statements are recorded one after the other. -/
theorem register_recordAll (file name : String) (placed : List (Span × StmtId)) (m : LineMaps) :
    (placed.foldl (fun m p => m.record name ⟨p.1, p.2⟩) m).register file =
      if name = file then (m.register file).map (Option.map fun kept =>
        (placed.map fun p => Landmark.mk p.1 p.2).foldl pushed kept)
      else m.register file := by
  induction placed generalizing m with
  | nil => simp
  | cons p rest ih =>
    rw [List.foldl_cons, ih, register_record]
    split
    · rw [Option.map_map, Option.map_comp_map]
      rfl
    · rfl

/-- The maps take in a landmark by pushing it into its place. -/
theorem register_perform (m : LineMaps) (file : String) (c : Call) :
    (m.perform c).register file = note file pushed (m.register file) c := by
  cases c with
  | enable => cases hfiles : m.files <;> simp [perform, LineMaps.enable, note, register, hfiles]
  | disable => rfl
  | track name => exact register_track m file name
  | record name mark => exact register_record m file name mark
  | build u firstStmt =>
    have hfile : (Script.build u firstStmt).file? = u.file? := rfl
    simp only [perform, recordScript, note, hfile]
    cases u.file? with
    | none => rfl
    | some name =>
      rw [register_recordAll, register_track]
      simp only [Option.some.injEq]
      split
      · rw [Option.map_map]
        rfl
      · rfl

open Landmark (Arranges)

/-- One call keeps the landmarks in order. -/
theorem note_arranges (file : String) {r r' : Register}
    (h : Option.Rel (Option.Rel Arranges) r r') (c : Call) :
    Option.Rel (Option.Rel Arranges) (note file (fun marks mark => marks ++ [mark]) r c)
      (note file pushed r' c) := by
  cases c with
  | enable =>
    cases h with
    | none => exact .some .none
    | some h => exact .some h
  | disable => exact .none
  | track name =>
    simp only [note]
    split
    · rcases h with ⟨⟨hkept⟩ | _⟩ | _
      exacts [.some (.some hkept), .some (.some .nil), .none]
    · exact h
  | record name mark =>
    simp only [note]
    split
    · rcases h with ⟨⟨hkept⟩ | _⟩ | _
      exacts [.some (.some (hkept.push mark)), .some .none, .none]
    · exact h
  | build u firstStmt =>
    simp only [note]
    split
    · rcases h with ⟨⟨hkept⟩ | _⟩ | _
      exacts [.some (.some (hkept.pushAll _)), .some (.some (Arranges.nil.pushAll _)), .none]
    · exact h

/-- Every sequence of calls leaves the landmarks of each file in order. -/
theorem after_arranges (file : String) (calls : List Call) :
    Option.Rel (Option.Rel Arranges) (registered file calls) ((after calls).register file) := by
  suffices ∀ (m : LineMaps) (r : Register), Option.Rel (Option.Rel Arranges) r (m.register file) →
      Option.Rel (Option.Rel Arranges) (calls.foldl (note file fun marks mark => marks ++ [mark]) r)
        ((calls.foldl perform m).register file) from this .off none .none
  induction calls with
  | nil => exact fun _ _ h => h
  | cons c rest ih =>
    intro m r h
    refine ih (m.perform c) _ ?_
    rw [register_perform]
    exact note_arranges file h c

/-- The landmarks of a tracked file are those registered for it, sorted by where they
start and stably so; a line leads to the earliest of its leftmost statements; and a
unit of the file registers each statement of its document once, after its parts. -/
theorem landmarks_stably_sorted (file : String) (calls : List Call) (marks : List Landmark)
    (h : registered file calls = some (some marks)) :
    ((after calls).landmarks file).Perm marks ∧
    ((after calls).landmarks file).Pairwise Landmark.Leads ∧
    (∀ line col, ((after calls).landmarks file).filter (Landmark.startsAt line col) =
      marks.filter (Landmark.startsAt line col)) ∧
    (∀ line, (after calls).atLine? file line =
      (marks.find? (Landmark.isLeftmost marks line)).map (·.stmt)) ∧
    ∀ (u : Doc.Unit) (firstStmt : StmtId), u.file? = some file →
      ∃ places : List (Span × StmtId),
        registered file (calls ++ [.build u firstStmt]) =
          some (some (marks ++ places.map fun p => ⟨p.1, p.2⟩)) ∧
        List.Forall₂ (Stmt.Marks (Script.build u firstStmt).body.preorder) u.body.postorder places ∧
        places.Pairwise fun p q => p.2 < q.2 := by
  obtain ⟨kept, hregister, hkept⟩ : ∃ kept, (after calls).register file = some (some kept) ∧
      Arranges marks kept := by
    have harranges := after_arranges file calls
    rw [h] at harranges
    generalize (after calls).register file = r at harranges ⊢
    obtain ⟨⟨hkept⟩⟩ := harranges
    exact ⟨_, rfl, hkept⟩
  have hlandmarks : (after calls).landmarks file = kept := by
    obtain ⟨files, hfiles, hlookup⟩ := Option.map_eq_some_iff.mp hregister
    obtain ⟨marks, hmarks, rfl⟩ := Option.map_eq_some_iff.mp hlookup
    rw [landmarks, file?, hfiles, Option.bind_some, hmarks, Option.getD_some]
  rw [hlandmarks]
  refine ⟨hkept.perm, hkept.sorted, hkept.stable, fun line => ?_, fun u firstStmt hu => ?_⟩
  · rw [atLine?, hlandmarks, hkept.find?_line]
  · obtain ⟨hmarks, hrising⟩ := Script.placed_build u firstStmt
    refine ⟨(Script.build u firstStmt).placed, ?_, hmarks, hrising⟩
    have hnote : registered file (calls ++ [.build u firstStmt]) =
        note file (fun marks mark => marks ++ [mark]) (registered file calls) (.build u firstStmt) :=
      List.foldl_concat ..
    rw [hnote, h, note, if_pos hu, Option.map_some, Option.getD_some, List.foldl_append_eq_append,
      ← List.flatMap_def, List.flatMap_singleton']
    rfl

/-- Three statements of one line, the rightmost registered first and the others at one place. -/
def threeOnALine : List Call :=
  [.enable, .track "rules", .record "rules" ⟨⟨3, 9, 3, 20⟩, 4⟩, .record "rules" ⟨⟨3, 2, 3, 8⟩, 6⟩,
    .record "rules" ⟨⟨3, 2, 3, 20⟩, 5⟩]

theorem landmarks_stably_sorted_threeOnALine :
    registered "rules" threeOnALine =
        some (some [⟨⟨3, 9, 3, 20⟩, 4⟩, ⟨⟨3, 2, 3, 8⟩, 6⟩, ⟨⟨3, 2, 3, 20⟩, 5⟩]) ∧
      ((after threeOnALine).landmarks "rules").map (·.stmt) = [6, 5, 4] ∧
      ((after threeOnALine).landmarks "rules").Pairwise Landmark.Leads ∧
      (after threeOnALine).atLine? "rules" 3 = some 6 := by
  have hregistered : registered "rules" threeOnALine =
      some (some [⟨⟨3, 9, 3, 20⟩, 4⟩, ⟨⟨3, 2, 3, 8⟩, 6⟩, ⟨⟨3, 2, 3, 20⟩, 5⟩]) := rfl
  obtain ⟨-, hsorted, -, hline, -⟩ := landmarks_stably_sorted "rules" threeOnALine _ hregistered
  exact ⟨hregistered, by decide +kernel, hsorted, (hline 3).trans (by decide)⟩

end LineMaps

end Vigil
