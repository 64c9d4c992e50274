import Vigil.Expr.Eval
import Vigil.Expr.Text
import Vigil.Proofs.Exec.Run
import Vigil.Proofs.Typing.Syntax
import Vigil.Text.Alphanumeric

/-!
# Vigil.Proofs.Expr.Reading — what the text of an expression says

The text of an expression without constants is made of names and of signs. A
reader goes through it with a stack of what is still open (`Reader.step`,
`Scans`). No sign begins another and no name begins a sign, so a text is read in
one way only (`Scans.unique`).

From the text of a typed expression the reader rebuilds the expression, up to
one choice (`Typed.reads`): a sign before `x in t` can stand before `x` or before
the whole, and both are written alike. `Expr.tight` always takes the first. So
two texts are equal exactly when the tight forms are, and where no sign stands
before a membership of one element the text gives the expression, and with it
what it evaluates to.
-/

namespace Vigil

/-- Membership asks for a collection. -/
theorem Verdict.isPlain_of_member {elem : List Expr} {target ty : Ty} {span : Span}
    (ht : target.clean = true) (h : member elem target span = .ok ty) :
    target.isPlain = false := by
  unfold member at h
  split at h
  · cases ht
  all_goals first | rfl | cases h

namespace Expr

variable {e : Expr} {i : Ident} {e' : Expr} {idents : List Ident}

/-! ## Structure -/

mutual

/-- Made of names alone: no constant, no assignment, nothing that failed. -/
def symbolic : Expr → Bool
  | .name .. => true
  | .unary _ e _ | .size e _ => symbolic e
  | .binary _ l r _ => symbolic l && symbolic r
  | .index t is _ => symbolic t && symbolicList is
  | .member es t _ => symbolicList es && symbolic t
  | .const .. | .assign .. | .error _ => false

def symbolicList : List Expr → Bool
  | [] => true
  | e :: es => symbolic e && symbolicList es

end

/-- What stands for the type and location of a node that is not looked at. -/
def blank : ExprInfo := ⟨.void, .unknown⟩

/-- A sign before an expression, moved to the first operand of memberships. -/
def pushSign (op : UnaryOp) : Expr → Expr
  | .member [e] t i => .member [pushSign op e] t i
  | e => .unary op e blank
termination_by structural e => e

mutual

/-- The forms and names of an expression, without types and locations. Signs are
moved as far inside as the text allows, if they are to `move`. -/
def form (move : Bool) : Expr → Expr
  | .const v _ => .const v blank
  | .name i _ => .name i blank
  | .unary op e _ => if move then pushSign op (form move e) else .unary op (form move e) blank
  | .binary op l r _ => .binary op (form move l) (form move r) blank
  | .assign t v _ => .assign (form move t) (form move v) blank
  | .index t is _ => .index (form move t) (forms move is) blank
  | .member es t _ => .member (forms move es) (form move t) blank
  | .size e _ => .size (form move e) blank
  | .error _ => .error blank

def forms (move : Bool) : List Expr → List Expr
  | [] => []
  | e :: es => form move e :: forms move es

end

/-- The structure of an expression. -/
def bare (e : Expr) : Expr := e.form false

/-- The structure in which every sign stands as far inside as its text allows.
It is the structure itself if no sign stands before a membership of one element. -/
def tight (e : Expr) : Expr := e.form true

mutual

/-- Evaluation looks at the structure of a symbolic expression only. -/
theorem eval_form (f : FrameRef) :
    ∀ {e : Expr}, e.symbolic = true → (e.form false).eval f = e.eval f
  | .const .., h | .assign .., h | .error _, h => by simp [symbolic] at h
  | .name .., _ => by simp only [form, eval]
  | .unary op e _, h => by
    have he := eval_form f (e := e) h
    simp only [form, Bool.false_eq_true, if_false, eval, he]
  | .binary op l r _, h => by
    simp only [symbolic, Bool.and_eq_true] at h
    cases op <;> simp only [form, eval, eval_form f h.1, eval_form f h.2]
  | .index t is _, h => by
    simp only [symbolic, Bool.and_eq_true] at h
    simp only [form, eval, eval_form f h.1, evalList_forms f h.2]
  | .member es t _, h => by
    simp only [symbolic, Bool.and_eq_true] at h
    simp only [form, eval, eval_form f h.2, evalList_forms f h.1]
  | .size e _, h => by simp only [form, eval, eval_form f (e := e) h]

theorem evalList_forms (f : FrameRef) : ∀ {es : List Expr}, symbolicList es = true →
    evalList f (forms false es) = evalList f es
  | [], _ => by rw [forms]
  | e :: es, h => by
    simp only [symbolicList, Bool.and_eq_true] at h
    simp only [forms, evalList, eval_form f h.1, evalList_forms f h.2]

end

/-! ## A tight form is written as the expression is -/

theorem isCompound_pushSign (op : UnaryOp) (e : Expr) : (pushSign op e).isCompound = false := by
  unfold pushSign
  split <;> rfl

theorem parens_of_not_isCompound (h : e.isCompound = false) (text : String) :
    parens e text = text := by
  rw [parens, h]
  rfl

theorem parens_form (e : Expr) (text : String) : parens (e.form true) text = parens e text := by
  have hcompound : (e.form true).isCompound = e.isCompound := by
    cases e with
    | unary op e i =>
      rw [form, if_pos rfl, isCompound_pushSign]
      rfl
    | _ => simp [form, isCompound]
  rw [parens, parens, hcompound]

theorem text_pushSign (op : UnaryOp) (e : Expr) :
    (pushSign op e).text = op.symbol ++ parens e e.text := by
  fun_induction pushSign op e with
  | case1 e t i ih =>
    rw [text, parens_of_not_isCompound (isCompound_pushSign op e), ih,
      parens_of_not_isCompound (e := .member [e] t i) rfl, text]
    simp only [String.append_assoc]
  | case2 e _ => rw [text]

mutual

theorem text_form : ∀ e : Expr, (e.form true).text = e.text
  | .const .. | .error _ | .name .. => by simp only [form, text]
  | .unary op e _ => by rw [form, if_pos rfl, text_pushSign, text_form e, parens_form, text]
  | .binary op l r _ => by simp only [form, text, text_form l, text_form r, parens_form]
  | .assign t v _ => by simp only [form, text, text_form t, text_form v]
  | .index t is _ => by simp only [form, text, text_form t, texts_forms is, parens_form]
  | .member [] t _ => by simp only [form, forms, text, text_form t, parens_form]
  | .member [e] t _ => by simp only [form, forms, text, text_form e, text_form t, parens_form]
  | .member (e :: e' :: es) t _ => by
    have hes := texts_forms (e :: e' :: es)
    simp only [forms] at hes
    simp only [form, forms, text, hes, text_form t, parens_form]
  | .size e _ => by simp only [form, text, text_form e]

theorem texts_forms : ∀ es : List Expr, texts (forms true es) = texts es
  | [] => rfl
  | e :: es => by rw [forms, texts, texts, text_form e, texts_forms es]

end

/-! ## Names and signs -/

/-- What stands between names. -/
inductive Punct where
  | sign (op : UnaryOp)
  | operator (op : BinaryOp)
  | within
  | lparen
  | rparen
  | lbrack
  | rbrack
  | bar
  | comma
deriving DecidableEq, Repr

namespace Punct

def text : Punct → String
  | .sign op => op.symbol
  | .operator op => " " ++ op.symbol ++ " "
  | .within => " in "
  | .lparen => "("
  | .rparen => ")"
  | .lbrack => "["
  | .rbrack => "]"
  | .bar => "|"
  | .comma => ", "

def all : List Punct :=
  UnaryOp.all.map .sign ++ BinaryOp.all.map .operator ++
    [.within, .lparen, .rparen, .lbrack, .rbrack, .bar, .comma]

theorem mem_all (p : Punct) : p ∈ all := by
  cases p with
  | sign op => cases op <;> decide
  | operator op => cases op <;> decide
  | _ => decide

end Punct

/-- Part of a name. -/
def isWordChar (c : Char) : Bool := Text.isAlphanumeric c || c == '_'

/-- Names that can be told from one another and from what stands around them. -/
structure Legible (idents : List Ident) : Prop where
  word : ∀ i ∈ idents, i.name ≠ "" ∧ ∀ c ∈ i.name.toList, isWordChar c = true
  distinct : ∀ i ∈ idents, ∀ j ∈ idents, i.name = j.name → i = j

/-- A name, or a sign. -/
inductive Token where
  | word (i : Ident)
  | punct (p : Punct)

namespace Token

def text : Token → String
  | .word i => i.name
  | .punct p => p.text

/-- The token ends where the rest begins: a known name is not continued. -/
def Ends (idents : List Ident) (rest : List Char) : Token → Prop
  | .word i => i ∈ idents ∧ rest.takeWhile isWordChar = []
  | .punct _ => True

/-- A sign starts with no part of a name. -/
theorem takeWhile_punct (p : Punct) (rest : List Char) :
    (p.text.toList ++ rest).takeWhile isWordChar = [] ∧ p.text.toList ≠ [] := by
  have hall : ∀ p ∈ Punct.all, (p.text.toList.head?.any fun c => !isWordChar c) = true := by
    decide +kernel
  have hp := hall p p.mem_all
  cases htext : p.text.toList with
  | nil =>
    rw [htext] at hp
    cases hp
  | cons c rest =>
    rw [htext] at hp
    exact ⟨List.takeWhile_cons_of_neg (by simpa using hp), List.cons_ne_nil _ _⟩

/-- No sign begins another. -/
theorem punct_inj {p q : Punct} {rest rest' : List Char}
    (h : p.text.toList ++ rest = q.text.toList ++ rest') : p = q := by
  have hall : ∀ p ∈ Punct.all, ∀ q ∈ Punct.all,
      p.text.toList.isPrefixOf q.text.toList = true → p = q := by
    decide +kernel
  rcases List.append_eq_append_iff.mp h with ⟨more, hq, -⟩ | ⟨more, hp, -⟩
  · exact hall p p.mem_all q q.mem_all (List.isPrefixOf_iff_prefix.mpr ⟨more, hq.symm⟩)
  · exact (hall q q.mem_all p p.mem_all (List.isPrefixOf_iff_prefix.mpr ⟨more, hp.symm⟩)).symm

variable {idents : List Ident} {t t' : Token} {rest rest' : List Char}

/-- The name at the beginning of a text. -/
theorem takeWhile_word (hL : Legible idents) (h : Ends idents rest (.word i)) :
    (i.name.toList ++ rest).takeWhile isWordChar = i.name.toList := by
  rw [List.takeWhile_append_of_pos (hL.word i h.1).2, h.2, List.append_nil]

theorem text_ne_nil (hL : Legible idents) (h : Ends idents rest t) : t.text.toList ≠ [] := by
  cases t with
  | word i => exact fun hnil => (hL.word i h.1).1 (String.toList_eq_nil_iff.mp hnil)
  | punct p => exact (takeWhile_punct p []).2

/-- A text begins with one token only. -/
theorem eq_of_text (hL : Legible idents) (h : Ends idents rest t) (h' : Ends idents rest' t')
    (heq : t.text.toList ++ rest = t'.text.toList ++ rest') : t = t' ∧ rest = rest' := by
  have htokens : t = t' := by
    cases t with
    | word i =>
      have hi := takeWhile_word hL h
      cases t' with
      | word j =>
        have hj := takeWhile_word hL h'
        rw [← show i.name.toList ++ rest = j.name.toList ++ rest' from heq, hi] at hj
        rw [hL.distinct i h.1 j h'.1 (String.toList_inj.mp hj)]
      | punct q =>
        have hq := (takeWhile_punct q rest').1
        rw [← show i.name.toList ++ rest = q.text.toList ++ rest' from heq, hi] at hq
        exact absurd hq (text_ne_nil hL h)
    | punct p =>
      have hp := (takeWhile_punct p rest).1
      cases t' with
      | word j =>
        rw [show p.text.toList ++ rest = j.name.toList ++ rest' from heq,
          takeWhile_word hL h'] at hp
        exact absurd hp (text_ne_nil hL h')
      | punct q => rw [punct_inj heq]
  subst htokens
  exact ⟨rfl, List.append_cancel_left heq⟩

end Token

/-! ## The reader -/

/-- What is still open while an expression is read. -/
inductive Pending where
  /-- A sign that waits for its operand. -/
  | sign (op : UnaryOp)
  /-- Elements that wait for the collection after `in`. -/
  | inside (es : List Expr)
  /-- A left operand that waits for the right one. -/
  | infixed (op : BinaryOp) (lhs : Expr)
  /-- A bracket with what was read in it: the index of `target?`, or elements before `in`. -/
  | items (target? : Option Expr) (es : List Expr)
  | paren
  | bars

namespace Pending

variable {S : List Pending}

/-- Give an operand to the signs and memberships that wait for it. -/
def settle : List Pending → Expr → List Pending × Expr
  | .sign op :: S, e => settle S (.unary op e blank)
  | .inside es :: S, e => settle S (.member es e blank)
  | S, e => (S, e)

/-- Give it to a binary operator too. -/
def complete (S : List Pending) (e : Expr) : List Pending × Expr :=
  match settle S e with
  | (.infixed op l :: S', r) => (S', .binary op l r blank)
  | other => other

/-- Nothing waits for an operand directly. -/
def Opening : List Pending → Prop
  | [] | .items .. :: _ | .paren :: _ | .bars :: _ => True
  | _ => False

/-- Neither a sign nor a membership waits. -/
def Settled (S : List Pending) : Prop := ∀ e, settle S e = (S, e)

theorem Opening.settled (h : Opening S) : Settled S := by
  intro e
  unfold Opening at h
  split at h
  all_goals first | rfl | exact h.elim

theorem Opening.complete {S' : List Pending} (h : Opening S) (hsettle : settle S' e' = (S, e)) :
    complete S' e' = (S, e) := by
  rw [Pending.complete, hsettle]
  unfold Opening at h
  split at h
  all_goals first | rfl | exact h.elim

/-- Signs that wait, the nearest first, moved inside. -/
def pushSigns (ops : List UnaryOp) (e : Expr) : Expr := ops.foldl (fun e op => pushSign op e) e

theorem pushSigns_member (ops : List UnaryOp) (e t : Expr) (i : ExprInfo) :
    pushSigns ops (.member [e] t i) = .member [pushSigns ops e] t i := by
  induction ops generalizing e with
  | nil => rfl
  | cons op ops ih => exact ih (pushSign op e)

/-- Before anything but a membership of one element signs stay where they are. -/
theorem settle_signs (hS : Settled S) (ops : List UnaryOp)
    (he : ∀ x t i, e = .member [x] t i → False) :
    settle (ops.map .sign ++ S) e = (S, pushSigns ops e) := by
  induction ops generalizing e with
  | nil => exact hS e
  | cons op ops ih =>
    have hpush : pushSign op e = .unary op e blank := by
      rw [pushSign]
      exact he
    have hrest := ih (e := .unary op e blank) nofun
    rw [← hpush] at hrest
    exact (congrArg (settle _) hpush.symm).trans hrest

end Pending

open Pending

/-- How far an expression is read. -/
inductive Reader where
  /-- An operand comes next. -/
  | want (S : List Pending)
  /-- An operand was read. -/
  | held (S : List Pending) (e : Expr)
  /-- Elements in brackets were read; `in` comes next. -/
  | listed (S : List Pending) (es : List Expr)
  | stuck

namespace Reader

/-- At a closing bracket. -/
def closeItems (S : List Pending) (es : List Expr) : Option Expr → Reader
  | none => .listed S es
  | some t => .held S (.index t es blank)

/-- At a sign that ends a whole expression. -/
def close : Punct → List Pending × Expr → Reader
  | .rparen, (.paren :: S, e) => .held S e
  | .bar, (.bars :: S, e) => .held S (.size e blank)
  | .comma, (.items t es :: S, e) => .want (.items t (es ++ [e]) :: S)
  | .rbrack, (.items t es :: S, e) => closeItems S (es ++ [e]) t
  | _, _ => .stuck

def step : Reader → Token → Reader
  | .want S, .word i => .held S (.name i blank)
  | .want S, .punct (.sign op) => .want (.sign op :: S)
  | .want S, .punct .lparen => .want (.paren :: S)
  | .want S, .punct .bar => .want (.bars :: S)
  | .want S, .punct .lbrack => .want (.items none [] :: S)
  | .want (.items t [] :: S), .punct .rbrack => closeItems S [] t
  | .held S e, .punct .lbrack => .want (.items (some e) [] :: S)
  | .held S e, .punct .within => .want (.inside [(settle S e).2] :: (settle S e).1)
  | .held S e, .punct (.operator op) => .want (.infixed op (settle S e).2 :: (settle S e).1)
  | .held S e, .punct p => close p (complete S e)
  | .listed S es, .punct .within => .want (.inside es :: S)
  | _, _ => .stuck

end Reader

open Reader

/-- The reader goes through a text, token by token. -/
inductive Scans (idents : List Ident) : Reader → List Char → Reader → Prop where
  | done (r : Reader) : Scans idents r [] r
  | step {r out : Reader} {t : Token} {rest : List Char} (hends : t.Ends idents rest)
      (h : Scans idents (r.step t) rest out) : Scans idents r (t.text.toList ++ rest) out

/-- A text is read in one way only. -/
theorem Scans.unique (hL : Legible idents) {r out out' : Reader} {text : List Char}
    (h : Scans idents r text out) (h' : Scans idents r text out') :
    out = out' := by
  induction h with
  | done r =>
    generalize htext : ([] : List Char) = text at h'
    cases h' with
    | done => rfl
    | step hends =>
      exact absurd (List.append_eq_nil_iff.mp htext.symm).1 (Token.text_ne_nil hL hends)
  | @step r out t rest hends _ ih =>
    generalize htext : t.text.toList ++ rest = text at h'
    cases h' with
    | done => exact absurd (List.append_eq_nil_iff.mp htext).1 (Token.text_ne_nil hL hends)
    | step hends' h' =>
      obtain ⟨rfl, rfl⟩ := Token.eq_of_text hL hends hends' htext
      exact ih h'

/-- The reader gets over a text, if what follows is no part of a name. -/
def Gets (idents : List Ident) (text : String) (r r' : Reader) : Prop :=
  ∀ rest out, rest.takeWhile isWordChar = [] → Scans idents r' rest out →
    Scans idents r (text.toList ++ rest) out

namespace Gets

variable {idents : List Ident} {text text' : String} {r r' r'' : Reader}

theorem refl (r : Reader) : Gets idents "" r r := fun _ _ _ h => h

theorem word (hi : i ∈ idents) (r : Reader) : Gets idents i.name r (r.step (.word i)) :=
  fun _ _ hrest h => .step (t := .word i) ⟨hi, hrest⟩ h

theorem sign (p : Punct) (h : Gets idents text (r.step (.punct p)) r') :
    Gets idents (p.text ++ text) r r' := by
  intro rest out hrest hscan
  rw [String.toList_append, List.append_assoc]
  exact .step (t := .punct p) trivial (h rest out hrest hscan)

theorem trans (h : Gets idents text r r') (p : Punct)
    (h' : Gets idents text' (r'.step (.punct p)) r'') :
    Gets idents (text ++ (p.text ++ text')) r r'' := by
  intro rest out hrest hscan
  have hnext := h'.sign p rest out hrest hscan
  rw [String.toList_append, List.append_assoc]
  refine h _ out ?_ hnext
  rw [String.toList_append, List.append_assoc]
  exact (Token.takeWhile_punct p _).1

theorem close (h : Gets idents text r r') (p : Punct) :
    Gets idents (text ++ p.text) r (r'.step (.punct p)) := by
  have hend := h.trans p (.refl _)
  rwa [String.append_empty] at hend

/-- At a sign that ends a whole expression. -/
theorem closeWhole {S : List Pending} {c : List Pending × Expr} (h : Gets idents text r (.held S e))
    (hc : complete S e = c) (p : Punct)
    (hp : (held S e).step (.punct p) = Reader.close p (complete S e)) :
    Gets idents (text ++ p.text) r (Reader.close p c) := by
  rw [← hc, ← hp]
  exact h.close p

end Gets

/-! ## Reading the text of an expression -/

/-- A name or an element. -/
def isPlace : Expr → Bool
  | .name .. | .index .. => true
  | _ => false

/-- What the reader makes of the text of an expression, by where it stands. -/
structure Reads (idents : List Ident) (e : Expr) : Prop where
  /-- A place is read at once: whatever waits for it may still see an index. -/
  place : e.isPlace = true → ∀ S, Gets idents (parens e e.text) (.want S) (.held S (e.form true))
  /-- An operand is read up to what still waits for it. -/
  operand : ∀ ops S, Settled S → ∃ S' e',
    Gets idents (parens e e.text) (.want (ops.map .sign ++ S)) (.held S' e') ∧
      settle S' e' = (S, pushSigns ops (e.form true))
  /-- Where nothing waits, the whole expression is read. -/
  whole : ∀ S, Opening S → ∃ S' e', Gets idents e.text (.want S) (.held S' e') ∧
    complete S' e' = (S, e.form true)

namespace Reads

variable {idents : List Ident} {e t : Expr} {es : List Expr} {info : ExprInfo}

/-- An expression that is no place and needs no parentheses. -/
theorem ofSimple (hplace : e.isPlace = false) (hcompound : e.isCompound = false)
    (h : ∀ ops S, Settled S → ∃ S' e',
      Gets idents e.text (.want (ops.map .sign ++ S)) (.held S' e') ∧
        settle S' e' = (S, pushSigns ops (e.form true))) : Reads idents e where
  place hp := absurd hp (by rw [hplace]; decide)
  operand := by
    rw [parens_of_not_isCompound hcompound]
    exact h
  whole S hS := by
    obtain ⟨S', e', hget, hsettle⟩ := h [] S hS.settled
    exact ⟨S', e', hget, hS.complete hsettle⟩

/-- An expression that is read at once. -/
theorem ofExact (hcompound : e.isCompound = false)
    (hmember : ∀ x t i, e.form true = .member [x] t i → False)
    (h : ∀ S, Gets idents e.text (.want S) (.held S (e.form true))) : Reads idents e where
  place _ := by
    rw [parens_of_not_isCompound hcompound]
    exact h
  operand ops S hS := by
    rw [parens_of_not_isCompound hcompound]
    exact ⟨_, _, h _, settle_signs hS ops hmember⟩
  whole S hS := ⟨S, _, h S, hS.complete (hS.settled _)⟩

/-- A list up to its closing bracket. -/
theorem items (t : Option Expr) (S : List Pending) : ∀ (es done : List Expr),
    (∀ e ∈ es, Reads idents e) → (es = [] → done = []) →
    Gets idents (", ".intercalate (texts es) ++ Punct.rbrack.text) (.want (.items t done :: S))
      (closeItems S (done ++ forms true es) t)
  | [], done, _, hdone => by
    rw [hdone rfl]
    exact .close (.refl _) .rbrack
  | [e], done, h, _ => by
    obtain ⟨S', e', hget, hcomplete⟩ := (h e List.mem_cons_self).whole (.items t done :: S) trivial
    exact hget.closeWhole hcomplete .rbrack rfl
  | e :: e' :: es, done, h, _ => by
    obtain ⟨S', e₁, hget, hcomplete⟩ := (h e List.mem_cons_self).whole (.items t done :: S) trivial
    have hrest := items t S (e' :: es) (done ++ [e.form true])
      (fun x hx => h x (List.mem_cons_of_mem _ hx)) nofun
    have hforms : done ++ forms true (e :: e' :: es) =
        done ++ [e.form true] ++ forms true (e' :: es) := by
      rw [List.append_assoc]
      rfl
    have hcomma : (Reader.held S' e₁).step (.punct .comma) =
        .want (.items t (done ++ [e.form true]) :: S) := by
      change Reader.close .comma (complete S' e₁) = _
      rw [hcomplete]
      rfl
    rw [← hforms, ← hcomma] at hrest
    have hall := hget.trans .comma hrest
    rw [texts, texts, String.intercalate_cons_cons, String.append_assoc, String.append_assoc]
    exact hall

theorem name (hi : i ∈ idents) : Reads idents (.name i info) :=
  ofExact rfl nofun fun _ => .word hi _

theorem unary (h : Reads idents e) (op : UnaryOp) : Reads idents (.unary op e info) := by
  refine ofSimple rfl rfl fun ops S hS => ?_
  obtain ⟨S', e', hget, hsettle⟩ := h.operand (op :: ops) S hS
  exact ⟨S', e', hget.sign (.sign op), hsettle⟩

theorem size (h : Reads idents e) : Reads idents (.size e info) := by
  refine ofExact rfl nofun fun S => ?_
  obtain ⟨S', e', hget, hcomplete⟩ := h.whole (.bars :: S) trivial
  have hbars := hget.closeWhole hcomplete .bar rfl
  rw [text, String.append_assoc]
  exact Gets.sign .bar hbars

/-- A binary expression stands in parentheses where it is an operand. -/
theorem binary {l r : Expr} (hl : Reads idents l) (hr : Reads idents r) (op : BinaryOp) :
    Reads idents (.binary op l r info) := by
  have hwhole : ∀ S, Opening S → ∃ S' e',
      Gets idents (text (.binary op l r info)) (.want S) (.held S' e') ∧
        complete S' e' = (S, form true (.binary op l r info)) := by
    intro S hS
    obtain ⟨S₁, l', hgetl, hsettlel⟩ := hl.operand [] S hS.settled
    obtain ⟨S₂, r', hgetr, hsettler⟩ := hr.operand [] (.infixed op (l.form true) :: S) fun _ => rfl
    refine ⟨S₂, r', ?_, by rw [complete, hsettler]; rfl⟩
    have hbetween : (held S₁ l').step (.punct (.operator op)) =
        .want (.infixed op (l.form true) :: S) := by
      rw [step, hsettlel]
      rfl
    have htext : text (.binary op l r info) =
        parens l l.text ++ ((Punct.operator op).text ++ parens r r.text) := by
      simp only [text, Punct.text, String.append_assoc]
    rw [htext]
    exact hgetl.trans (.operator op) (hbetween ▸ hgetr)
  refine ⟨nofun, fun ops S hS => ?_, hwhole⟩
  obtain ⟨S', e', hget, hcomplete⟩ := hwhole (.paren :: (ops.map .sign ++ S)) trivial
  have hparen := hget.closeWhole hcomplete .rparen rfl
  refine ⟨_, _, ?_, settle_signs hS ops nofun⟩
  rw [parens, isCompound, if_pos rfl, String.append_assoc]
  exact Gets.sign .lparen hparen

theorem index (ht : Reads idents t) (hplace : t.isPlace = true) (hes : ∀ e ∈ es, Reads idents e) :
    Reads idents (.index t es info) := by
  refine ofExact rfl nofun fun S => ?_
  rw [text, String.append_assoc, String.append_assoc]
  exact (ht.place hplace S).trans .lbrack (items (some (t.form true)) S es [] hes fun _ => rfl)

/-- One element: what waits goes to the element, and the collection is read after it. -/
theorem memberOne (he : Reads idents e) (ht : Reads idents t) (hplace : t.isPlace = true) :
    Reads idents (.member [e] t info) := by
  refine ofSimple rfl rfl fun ops S hS => ?_
  obtain ⟨S', e', hget, hsettle⟩ := he.operand ops S hS
  refine ⟨.inside [pushSigns ops (e.form true)] :: S, t.form true, ?_, ?_⟩
  · have hin : (held S' e').step (.punct .within) =
        .want (.inside [pushSigns ops (e.form true)] :: S) := by
      rw [step, hsettle]
    rw [text, String.append_assoc]
    exact hget.trans .within (hin ▸ ht.place hplace _)
  · rw [settle, hS, form, forms, forms, pushSigns_member]

/-- Elements in brackets. -/
theorem memberList (hes : ∀ e ∈ es, Reads idents e) (ht : Reads idents t)
    (hplace : t.isPlace = true) (hone : ∀ e, es ≠ [e]) : Reads idents (.member es t info) := by
  refine ofSimple rfl rfl fun ops S hS => ⟨.inside (forms true es) :: (ops.map .sign ++ S),
    t.form true, ?_, ?_⟩
  · have hlist := items none (ops.map .sign ++ S) es [] hes fun _ => rfl
    have hget := hlist.trans .within (ht.place hplace _)
    have hclose : "] in " = "]" ++ " in " := rfl
    rw [List.nil_append, String.append_assoc] at hget
    rw [text, hclose]
    · simp only [String.append_assoc]
      exact Gets.sign .lbrack hget
    · exact fun e he => hone e he
  · refine settle_signs hS ops fun x _ _ h => ?_
    rcases es with _ | ⟨e, _ | ⟨e', es⟩⟩
    · cases h
    · exact hone e rfl
    · cases h

end Reads

/-- Whatever is no place is computed. -/
theorem Typed.isPlace {L : Layout} (h : e.Typed L) (hs : e.symbolic = true)
    (hty : e.ty.isPlain = false) : e.isPlace = true := by
  have hcomputed : e.ty.isPlain = true → e.isPlace = true := fun hplain => by
    cases hty.symm.trans hplain
  cases e with
  | name => rfl
  | index => rfl
  | unary op e i => exact hcomputed (Verdict.isPlain_of_unary h.1.clean h.2)
  | binary op l r i =>
    exact hcomputed (Verdict.isPlain_of_binary h.1.clean h.2.1.clean h.2.2)
  | size e i => exact hcomputed (Verdict.isPlain_of_size h.1.clean h.2)
  | member es t i => exact hcomputed (by rw [ty, info, Verdict.eq_bool_of_member h.2.2]; rfl)
  | const v i => simp [symbolic] at hs
  | assign t v i => simp [symbolic] at hs
  | error i => simp [symbolic] at hs

mutual

theorem Typed.reads {L : Layout} :
    ∀ {e : Expr}, e.Typed L → e.symbolic = true → Reads L.idents e
  | .name .., h, _ => .name h.1
  | .unary op _ _, h, hs => .unary (h.1.reads hs) op
  | .size .., h, hs => .size (h.1.reads hs)
  | .binary op _ _ _, h, hs => by
    simp only [symbolic, Bool.and_eq_true] at hs
    exact .binary (h.1.reads hs.1) (h.2.1.reads hs.2) op
  | .index t _ _, h, hs => by
    simp only [symbolic, Bool.and_eq_true] at hs
    have hty : t.ty.isPlain = false := by
      obtain ⟨_, hty, -⟩ | ⟨_, hty, -⟩ | ⟨hty, -⟩ := Verdict.index_ok h.1.clean h.2.2 <;>
        exact congrArg Ty.isPlain hty
    have hplace := h.1.isPlace hs.1 hty
    exact .index (h.1.reads hs.1) hplace (TypedList.reads h.2.1 hs.2)
  | .member es t _, h, hs => by
    simp only [symbolic, Bool.and_eq_true] at hs
    have hplace := h.2.1.isPlace hs.2 (Verdict.isPlain_of_member h.2.1.clean h.2.2)
    have ht := h.2.1.reads hs.2
    have hes := TypedList.reads h.1 hs.1
    match es, hes with
    | [e], hes => exact .memberOne (hes e List.mem_cons_self) ht hplace
    | [], hes => exact .memberList hes ht hplace nofun
    | _ :: _ :: _, hes => exact .memberList hes ht hplace nofun
  | .const .., _, hs | .assign .., _, hs | .error _, _, hs => by simp [symbolic] at hs

theorem TypedList.reads {L : Layout} : ∀ {es : List Expr}, TypedList L es →
    symbolicList es = true → ∀ e ∈ es, Reads L.idents e
  | [], _, _ => List.forall_mem_nil _
  | _ :: _, h, hs => by
    simp only [symbolicList, Bool.and_eq_true] at hs
    exact List.forall_mem_cons.mpr ⟨h.1.reads hs.1, TypedList.reads h.2 hs.2⟩

end

/-- Equal texts are read alike. -/
theorem Reads.tight_eq (hL : Legible idents) (he : Reads idents e) (he' : Reads idents e')
    (h : e.text = e'.text) : e.tight = e'.tight := by
  obtain ⟨S, r, hget, hcomplete⟩ := he.whole [] trivial
  obtain ⟨S', r', hget', hcomplete'⟩ := he'.whole [] trivial
  have hscan := hget [] _ rfl (.done _)
  have hscan' := hget' [] _ rfl (.done _)
  rw [h] at hscan
  cases hscan.unique hL hscan'
  rw [hcomplete] at hcomplete'
  exact (Prod.mk.inj hcomplete').2

/-! ## Texts -/

/-- Typed expressions are written alike exactly when their signs, moved inside, leave the same
structure. So where no sign is there to be moved the text gives the structure and the
meaning. -/
theorem text_eq_iff_tight_eq {L : Layout} (hL : Legible L.idents) {e e' : Expr} (he : e.Typed L)
    (he' : e'.Typed L) (hs : e.symbolic = true) (hs' : e'.symbolic = true) :
    (e.text = e'.text ↔ e.tight = e'.tight) ∧
      (e.tight = e.bare → e'.tight = e'.bare → e.text = e'.text →
        e.bare = e'.bare ∧ ∀ f, e.eval f = e'.eval f) := by
  have hiff : e.text = e'.text ↔ e.tight = e'.tight := by
    constructor
    · exact (he.reads hs).tight_eq hL (he'.reads hs')
    · intro htight
      rw [← text_form e, show e.form true = e'.form true from htight, text_form e']
  refine ⟨hiff, fun hapart hapart' htext => ?_⟩
  have hbare : e.bare = e'.bare := by
    rw [← hapart, ← hapart', hiff.mp htext]
  refine ⟨hbare, fun f => ?_⟩
  rw [← eval_form f hs, show e.form false = e'.form false from hbare, eval_form f hs']

/-- A flag, a count, and a table and a set to look in. -/
def shelves : Layout where
  idents := [⟨"x", 0, .bool, none⟩, ⟨"n", 1, .count, none⟩,
    ⟨"by_n", 2, .table [.count] (.set [.bool]), none⟩, ⟨"t", 3, .set [.bool], none⟩]
  clean := by decide
  const := by simp
  apart := by decide

theorem legible_shelves : Legible shelves.idents where
  word := by simp [shelves, isWordChar, Text.isAlphanumeric]
  distinct := by simp [shelves]

/-- `(|by_n[n]| > -n) && !x in by_n[n]`, with the sign before `x`. -/
def flagOnShelf (span : Span) : Expr :=
  let n : Expr := .name ⟨"n", 1, .count, none⟩ ⟨.count, span⟩
  let shelf : Expr := .index
    (.name ⟨"by_n", 2, .table [.count] (.set [.bool]), none⟩
      ⟨.table [.count] (.set [.bool]), span⟩) [n] ⟨.set [.bool], span⟩
  let flag : Expr := .name ⟨"x", 0, .bool, none⟩ ⟨.bool, span⟩
  .binary .and
    (.binary .gt (.size shelf ⟨.count, span⟩) (.unary .negate n ⟨.int, span⟩) ⟨.bool, span⟩)
    (.member [.unary .not flag ⟨.bool, span⟩] shelf ⟨.bool, span⟩) ⟨.bool, span⟩

theorem typed_flagOnShelf (span : Span) : (flagOnShelf span).Typed shelves := by
  have hn : shelves.Has ⟨"n", 1, .count, none⟩ .count :=
    ⟨by decide, rfl⟩
  have hx : shelves.Has ⟨"x", 0, .bool, none⟩ .bool :=
    ⟨by decide, rfl⟩
  have hby : shelves.Has ⟨"by_n", 2, .table [.count] (.set [.bool]), none⟩
      (.table [.count] (.set [.bool])) :=
    ⟨by decide, rfl⟩
  exact ⟨⟨⟨⟨hby, ⟨hn, trivial⟩, rfl⟩, rfl⟩, ⟨hn, rfl⟩, rfl⟩,
    ⟨⟨⟨hx, rfl⟩, trivial⟩, ⟨hby, ⟨hn, trivial⟩, rfl⟩, rfl⟩, rfl⟩

/-- Written at two places, it is one structure and evaluates alike. -/
theorem text_eq_iff_tight_eq_flagOnShelf :
    Legible shelves.idents ∧ ∃ span span' : Span, span ≠ span' ∧
      (flagOnShelf span).Typed shelves ∧ (flagOnShelf span').Typed shelves ∧
      (flagOnShelf span).text = "(|by_n[n]| > -n) && !x in by_n[n]" ∧
      (flagOnShelf span).text = (flagOnShelf span').text ∧
      (flagOnShelf span).bare = (flagOnShelf span').bare ∧
      ∀ f, (flagOnShelf span).eval f = (flagOnShelf span').eval f := by
  have htext : (flagOnShelf .unknown).text = "(|by_n[n]| > -n) && !x in by_n[n]" := by
    decide +kernel
  have hsame : (flagOnShelf .unknown).text = (flagOnShelf ⟨1, 1, 1, 34⟩).text := by
    decide +kernel
  obtain ⟨-, hread⟩ := text_eq_iff_tight_eq legible_shelves (typed_flagOnShelf .unknown)
    (typed_flagOnShelf ⟨1, 1, 1, 34⟩) rfl rfl
  exact ⟨legible_shelves, .unknown, ⟨1, 1, 1, 34⟩, by decide, typed_flagOnShelf _,
    typed_flagOnShelf _, htext, hsame, hread rfl rfl hsame⟩

/-- `!(x in t)` and `(!x) in t` are both written `!x in t`. With nothing in `t` the one is
true and the other false. -/
theorem sign_before_membership_written_alike :
    ∃ (L : Layout) (e e' : Expr) (f : FrameRef) (w : World), Legible L.idents ∧
      e.Typed L ∧ e'.Typed L ∧ e.symbolic = true ∧ e'.symbolic = true ∧
      e.text = "!x in t" ∧ e'.text = "!x in t" ∧ e.bare ≠ e'.bare ∧
      ((e.eval f).runFrom w).1 = .ok (.bool true) ∧
      ((e'.eval f).runFrom w).1 = .ok (.bool false) := by
  let x : Expr := .name ⟨"x", 0, .bool, none⟩ ⟨.bool, .unknown⟩
  let t : Expr := .name ⟨"t", 3, .set [.bool], none⟩ ⟨.set [.bool], .unknown⟩
  let w : World := { World.start default default with
    heap := ⟨#[⟨[.bool], none, [], 0⟩], #[]⟩
    frames := #[⟨#[some (.bool true), none, none, some (.table ⟨0⟩)], none, none, none⟩] }
  have hx : shelves.Has ⟨"x", 0, .bool, none⟩ .bool :=
    ⟨by decide, rfl⟩
  have ht : shelves.Has ⟨"t", 3, .set [.bool], none⟩ (.set [.bool]) :=
    ⟨by decide, rfl⟩
  refine ⟨shelves, .unary .not (.member [x] t ⟨.bool, .unknown⟩) ⟨.bool, .unknown⟩,
    .member [.unary .not x ⟨.bool, .unknown⟩] t ⟨.bool, .unknown⟩, ⟨0⟩, w, legible_shelves,
    ⟨⟨⟨hx, trivial⟩, ht, rfl⟩, rfl⟩, ⟨⟨⟨hx, rfl⟩, trivial⟩, ht, rfl⟩, rfl, rfl,
    by decide +kernel, by decide +kernel, nofun, by decide +kernel, by decide +kernel⟩

end Expr

end Vigil
