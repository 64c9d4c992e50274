import Vigil.Proofs.History
import Vigil.Proofs.Trigger.Basic

/-!
# Vigil.Proofs.Exec.Calls — what an operation evaluates

The evaluations that take place while the host performs an operation, each
with the world it begins in. A task is a call of one of the evaluator's
recursive functions, and `Task.Calls` says which calls the body of such a
function makes, and from which worlds; `HostOp.Evaluates` follows these calls
from an operation down to an expression. Of what decides whether a call is
made at all, only the results before it are kept, so that more calls may be
listed than are made. None is left out (`HostOp.Follows.perform`).
-/

namespace Vigil

/-- A call of a function of the evaluator. -/
inductive Task where
  | eval (f : FrameRef) (e : Expr)
  | evalList (f : FrameRef) (es : List Expr)
  /-- Find the element a target names, to read, store, add or delete it. -/
  | place (f : FrameRef) (target : Expr)
  | exec (f : FrameRef) (s : Stmt)
  /-- What a statement does after it entered the journal. -/
  | act (f : FrameRef) (s : Stmt)
  | execList (f : FrameRef) (ss : List Stmt)
  | execEach (f : FrameRef) (ss : List Stmt)
  | execCases (f : FrameRef) (v : Value) (binding : Option Ident) (skip : Nat) (cases : List Case)
  | whileRounds (f : FrameRef) (test : Expr) (body : Stmt)
  | tableRounds (f : FrameRef) (r : TableRef) (vars : List Ident) (valueVar : Option Ident)
      (body : Stmt) (keys : List Key)
  | vectorRounds (f : FrameRef) (var : Ident) (body : Stmt) (i : Nat)
  | stringRounds (f : FrameRef) (var : Ident) (body : Stmt) (s : Bytes)
  | check (t : TriggerRef)
  | timeOut (t : TriggerRef)
  | checkEach (ts : List TriggerRef)
  | checkBatches (ts : List TriggerRef)
  | timeOutEach (ts : List TriggerRef)
  | perform (op : HostOp)

namespace Task

/-- Run from a world, the first task makes the second call in another. -/
inductive Calls (fuel : Nat) : World → Task → World → Task → Prop
  /- expressions -/
  | operand {w f op e i} : Calls fuel w (.eval f (.unary op e i)) w (.eval f e)
  | sized {w f e i} : Calls fuel w (.eval f (.size e i)) w (.eval f e)
  | left {w f op l r i} : Calls fuel w (.eval f (.binary op l r i)) w (.eval f l)
  | right {w w' f op l r i a} : (l.eval f).runFrom w = (.ok a, w') →
      Calls fuel w (.eval f (.binary op l r i)) w' (.eval f r)
  | value {w f t v i} : Calls fuel w (.eval f (.assign t v i)) w (.eval f v)
  | target {w w' f t v i a} : (v.eval f).runFrom w = (.ok a, w') →
      Calls fuel w (.eval f (.assign t v i)) w' (.place f t)
  | element {w f t is i} : Calls fuel w (.eval f (.index t is i)) w (.place f (.index t is i))
  | container {w f t is i} : Calls fuel w (.place f (.index t is i)) w (.eval f t)
  | index {w w' f t is i c} : (t.eval f).runFrom w = (.ok c, w') →
      Calls fuel w (.place f (.index t is i)) w' (.evalList f is)
  | collection {w f es t i} : Calls fuel w (.eval f (.member es t i)) w (.eval f t)
  | member {w w' f es t i c} : (t.eval f).runFrom w = (.ok c, w') →
      Calls fuel w (.eval f (.member es t i)) w' (.evalList f es)
  | head {w f e es} : Calls fuel w (.evalList f (e :: es)) w (.eval f e)
  | tail {w w' f e es v} : (e.eval f).runFrom w = (.ok v, w') →
      Calls fuel w (.evalList f (e :: es)) w' (.evalList f es)
  /- statements -/
  | act {w f s} : Calls fuel w (.exec f s) ((Exec.visit s.info).leaves w) (.act f s)
  | list {w f i body} : Calls fuel w (.act f (.list i body)) w (.execList f body)
  | bodyList {w f i bodies} : Calls fuel w (.act f (.bodyList i bodies)) w (.execEach f bodies)
  | expr {w f i e} : Calls fuel w (.act f (.expr i e)) w (.eval f e)
  | print {w f i args} : Calls fuel w (.act f (.print i args)) w (.evalList f args)
  | event {w f i name args} : Calls fuel w (.act f (.event i name args)) w (.evalList f args)
  | test {w f i t a b} : Calls fuel w (.act f (.cond i t a b)) w (.eval f t)
  | branch {w w' f i t a b v s} : (t.eval f).runFrom w = (.ok v, w') → s = a ∨ s = b →
      Calls fuel w (.act f (.cond i t a b)) ((Exec.setNext f s.id).leaves w') (.exec f s)
  | while {w f i t b} : Calls fuel w (.act f (.while i t b)) w (.whileRounds f t b)
  | iterable {w f i vars x t b} : Calls fuel w (.act f (.for i vars x t b)) w (.eval f t)
  | overTable {w w' f i vars x t b r} : (t.eval f).runFrom w = (.ok (.table r), w') →
      Calls fuel w (.act f (.for i vars x t b)) ((Exec.modifyTable r Table.enter).leaves w')
        (.tableRounds f r vars x b (w'.heap.table r).keys)
  | overVector {w w' f i var x t b r} : (t.eval f).runFrom w = (.ok (.vector r), w') →
      Calls fuel w (.act f (.for i [var] x t b)) w' (.vectorRounds f var b 0)
  | overString {w w' f i var x t b s} : (t.eval f).runFrom w = (.ok (.str s), w') →
      Calls fuel w (.act f (.for i [var] x t b)) w' (.stringRounds f var b s)
  | selector {w f i e cases d} : Calls fuel w (.act f (.switch i e cases d)) w (.eval f e)
  | arm {w w' f i e cases d v skip binding} : (e.eval f).runFrom w = (.ok v, w') →
      d.find w'.heap e.ty v = .ok (some skip, binding) →
      Calls fuel w (.act f (.switch i e cases d)) w' (.execCases f v binding skip cases)
  | add {w f i t} : Calls fuel w (.act f (.add i t)) w (.place f t)
  | delete {w f i t} : Calls fuel w (.act f (.delete i t)) w (.place f t)
  | return {w f i e} : Calls fuel w (.act f (.return i (some e))) w (.eval f e)
  | timeout {w f i t b e tb r} : Calls fuel w (.act f (.when i t b (some e) tb r)) w (.eval f e)
  /- sequences -/
  | first {w f s rest} :
      Calls fuel w (.execList f (s :: rest)) ((Exec.setNext f s.id).leaves w) (.exec f s)
  | next {w w' f s rest out} :
      (s.exec fuel f).runFrom ((Exec.setNext f s.id).leaves w) = (.ok out, w') →
      Calls fuel w (.execList f (s :: rest)) w' (.execList f rest)
  | handler {w f s rest} :
      Calls fuel w (.execEach f (s :: rest)) ((Exec.setNext f s.id).leaves w) (.exec f s)
  | nextHandler {w f s rest} :
      Calls fuel w (.execEach f (s :: rest))
        ((s.exec fuel f).leaves ((Exec.setNext f s.id).leaves w)) (.execEach f rest)
  | skip {w f v x n l b span rest} :
      Calls fuel w (.execCases f v x (n + 1) (.mk l b span :: rest)) w (.execCases f v x n rest)
  | case {w w' f v x l b span rest} : (Stmt.bindCase f v x).runFrom w = (.ok (), w') →
      Calls fuel w (.execCases f v x 0 (.mk l b span :: rest)) w' (.exec f b)
  | nextCase {w w' w'' f v x l b span rest out} :
      (Stmt.bindCase f v x).runFrom w = (.ok (), w') → (b.exec fuel f).runFrom w' = (.ok out, w'') →
      Calls fuel w (.execCases f v x 0 (.mk l b span :: rest)) w'' (.execCases f v x 0 rest)
  /- loops -/
  | whileTest {w f t b} : Calls fuel w (.whileRounds f t b) w (.eval f t)
  | whileBody {w w' f t b v} : (t.eval f).runFrom w = (.ok v, w') →
      Calls fuel w (.whileRounds f t b) w' (.exec f b)
  | whileNext {w w' w'' f t b v out} : (t.eval f).runFrom w = (.ok v, w') →
      (b.exec fuel f).runFrom w' = (.ok out, w'') →
      Calls fuel w (.whileRounds f t b) w'' (.whileRounds f t b)
  | absentKey {w f r vars x b k rest} :
      Calls fuel w (.tableRounds f r vars x b (k :: rest)) w (.tableRounds f r vars x b rest)
  | tableBody {w w' f r vars x b k rest v vals} :
      Table.find? k (w.heap.table r).entries = some v → (w.heap.table r).indexOf k = .ok vals →
      (Stmt.bindEntry f vars x vals v).runFrom w = (.ok (), w') →
      Calls fuel w (.tableRounds f r vars x b (k :: rest)) w' (.exec f b)
  | tableNext {w w' w'' f r vars x b k rest v vals out} :
      Table.find? k (w.heap.table r).entries = some v → (w.heap.table r).indexOf k = .ok vals →
      (Stmt.bindEntry f vars x vals v).runFrom w = (.ok (), w') →
      (b.exec fuel f).runFrom w' = (.ok out, w'') →
      Calls fuel w (.tableRounds f r vars x b (k :: rest)) w'' (.tableRounds f r vars x b rest)
  | emptySlot {w f var b i} :
      Calls fuel w (.vectorRounds f var b i) w (.vectorRounds f var b (i + 1))
  | vectorBody {w w' f var b i} :
      (Exec.writeSlot f var.slot (Value.coerce (.count (.ofNat i)) var.ty)).runFrom w =
        (.ok (), w') →
      Calls fuel w (.vectorRounds f var b i) w' (.exec f b)
  | vectorNext {w w' w'' f var b i out} :
      (Exec.writeSlot f var.slot (Value.coerce (.count (.ofNat i)) var.ty)).runFrom w =
        (.ok (), w') →
      (b.exec fuel f).runFrom w' = (.ok out, w'') →
      Calls fuel w (.vectorRounds f var b i) w'' (.vectorRounds f var b (i + 1))
  | stringBody {w w' f var b c rest} :
      (Exec.writeSlot f var.slot (.str [c])).runFrom w = (.ok (), w') →
      Calls fuel w (.stringRounds f var b (c :: rest)) w' (.exec f b)
  | stringNext {w w' w'' f var b c rest out} :
      (Exec.writeSlot f var.slot (.str [c])).runFrom w = (.ok (), w') →
      (b.exec fuel f).runFrom w' = (.ok out, w'') →
      Calls fuel w (.stringRounds f var b (c :: rest)) w'' (.stringRounds f var b rest)
  /- triggers -/
  | cond {w t c} : (w.trigger t).captured = some c →
      Calls fuel w (.check t) w (.eval c.frame c.cond)
  | fire {w w' t c held} : (w.trigger t).captured = some c →
      (World.holds c).runFrom w = (.ok held, w') →
      Calls fuel w (.check t) (((Exec.note (.look t held)).leaves w').settled t .fired c.body)
        (.exec c.frame c.body)
  | giveUp {w t c s} : (w.trigger t).captured = some c → c.timeoutBody = some s →
      Calls fuel w (.timeOut t) (w.settled t .timedOut s) (.exec c.frame s)
  | checkFirst {w t rest} : Calls fuel w (.checkEach (t :: rest)) w (.check t)
  | checkNext {w t rest} :
      Calls fuel w (.checkEach (t :: rest)) ((World.checkEach fuel [t]).leaves w) (.checkEach rest)
  | batch {w ts} : Calls fuel w (.checkBatches ts) w (.checkEach ts)
  | nextBatch {w w' ts} : (World.checkEach fuel ts).runFrom w = (.ok (), w') →
      Calls fuel w (.checkBatches ts) { w'.endBatch ts with fresh := [] }
        (.checkBatches (w'.endBatch ts).fresh)
  | timeOutFirst {w t rest} : Calls fuel w (.timeOutEach (t :: rest)) w (.timeOut t)
  | timeOutNext {w w' t rest} : (World.timeOut fuel t).runFrom w = (.ok (), w') →
      Calls fuel w (.timeOutEach (t :: rest)) w' (.timeOutEach rest)
  /- operations -/
  | run {w s f} : Calls fuel w (.perform (.run s f)) w (.exec f s.body)
  | checkAll {w} :
      Calls fuel w (.perform .checkAll) { w with pending := [], fresh := [] }
        (.checkBatches (w.pending ++ w.fresh))
  | expire {w now} :
      Calls fuel w (.perform (.expire now))
        { w with pending := w.pending.filter fun t => !w.isExpired now t }
        (.timeOutEach (w.pending.filter (w.isExpired now)))
  | advance {w time} :
      Calls fuel w (.perform (.advance time)) { w with now := time } (.perform .checkAll)
  | expireAfter {w w' time} : (World.checkAll fuel).runFrom { w with now := time } = (.ok (), w') →
      Calls fuel w (.perform (.advance time)) w' (.perform (.expire time))

end Task

namespace HostOp

/-- While the operation is performed from `w`, the task begins in `w'`. -/
def Involves (fuel : Nat) (op : HostOp) (w : World) (a : Task) (w' : World) : Prop :=
  Relation.ReflTransGen (fun a b => Task.Calls fuel a.1 a.2 b.1 b.2) (w, .perform op) (w', a)

/-- What holds of the operation, and of the calls of each task it holds of, holds
of all tasks. -/
theorem Involves.induct {fuel : Nat} {op : HostOp} {w w' : World} {a : Task}
    {J : World → Task → Prop} (h : op.Involves fuel w a w') (hop : J w (.perform op))
    (hcall : ∀ {v a v' b}, Task.Calls fuel v a v' b → J v a → J v' b) : J w' a := by
  suffices hall : ∀ b : World × Task, Relation.ReflTransGen
      (fun a b => Task.Calls fuel a.1 a.2 b.1 b.2) (w, .perform op) b → J b.1 b.2 from hall _ h
  intro b hb
  induction hb with
  | refl => exact hop
  | tail _ hstep ih => exact hcall hstep ih

/-- While the operation is performed from `w`, the evaluation of `e` in frame
`f` begins in `w'`. -/
def Evaluates (fuel : Nat) (op : HostOp) (w : World) (f : FrameRef) (e : Expr) (w' : World) :
    Prop := op.Involves fuel w (.eval f e) w'

/-- While the operation is performed from `w`, the execution of `s` in frame `f`
begins in `w'`. -/
def Executes (fuel : Nat) (op : HostOp) (w : World) (f : FrameRef) (s : Stmt) (w' : World) :
    Prop := op.Involves fuel w (.exec f s) w'

end HostOp

end Vigil
