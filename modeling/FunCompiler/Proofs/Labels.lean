import Mathlib.Data.List.Nodup
import FunCompiler.Proofs.Emission
import FunCompiler.Semantics.Machine

/-!
The labels that generated code defines. Different symbols have different names,
a construct uses the numbers that it issued, and so in a program whose
functions have different names every label of a function is defined once: a
jump or a call finds the place it is meant for.
-/

namespace FunCompiler

open Asm Code

/-! ### Names of symbols -/

namespace Asm

theorem Part.name_injective {p q : Part} (h : p.name = q.name) : p = q := by
  cases p <;> cases q <;> first | rfl | exact absurd h (by decide)

/-- A list is cut in one way only at its first underscore. -/
theorem append_underscore_inj {xs ys us vs : List Char} (hx : '_' ∉ xs) (hy : '_' ∉ ys)
    (h : xs ++ '_' :: us = ys ++ '_' :: vs) : xs = ys ∧ us = vs := by
  induction xs generalizing ys with
  | nil =>
      cases ys with
      | nil => exact ⟨rfl, by simpa using h⟩
      | cons y ys =>
          simp only [List.nil_append, List.cons_append, List.cons.injEq] at h
          simp [← h.1] at hy
  | cons x xs ih =>
      cases ys with
      | nil =>
          simp only [List.nil_append, List.cons_append, List.cons.injEq] at h
          simp [h.1] at hx
      | cons y ys =>
          simp only [List.cons_append, List.cons.injEq] at h
          simp only [List.mem_cons, not_or] at hx hy
          obtain ⟨rfl, rfl⟩ := ih hx.2 hy.2 h.2
          exact ⟨by rw [h.1], rfl⟩

theorem toDigits_injective {m n : Nat} (h : Nat.toDigits 10 m = Nat.toDigits 10 n) : m = n := by
  have hvalue := congrArg (Nat.ofDigitChars 10 · 0) h
  simpa using hvalue

theorem toList_toString (v : Int) :
    (toString v).toList =
      if 0 ≤ v then Nat.toDigits 10 v.toNat else '-' :: Nat.toDigits 10 (-v).toNat := by
  rw [Int.toString_eq_repr, Int.repr_eq_if]
  split <;> simp

theorem toList_controlName (id : Nat) (part : String) :
    (controlName id part).toList = 'L' :: (Nat.toDigits 10 id ++ '_' :: part.toList) := by
  show ("L" ++ toString (id : Int) ++ "_" ++ part).toList = _
  rw [String.toList_append, String.toList_append, String.toList_append, toList_toString,
    if_pos (Int.natCast_nonneg id)]
  simp

theorem controlName_injective {i j : Nat} {p q : Part}
    (h : controlName i p.name = controlName j q.name) : i = j ∧ p = q := by
  have hlist := congrArg String.toList h
  rw [toList_controlName, toList_controlName] at hlist
  obtain ⟨hid, hpart⟩ := append_underscore_inj Nat.underscore_not_in_toDigits
    Nat.underscore_not_in_toDigits (List.cons.inj hlist).2
  exact ⟨toDigits_injective hid, Part.name_injective (String.toList_injective hpart)⟩

/-- The names of different symbols differ. -/
theorem Symbol.name_injective {a b : Symbol} (h : a.name = b.name) : a = b := by
  have hlist := congrArg String.toList h
  cases a <;> cases b
  case control.control i p j q =>
    obtain ⟨rfl, rfl⟩ := controlName_injective h
    rfl
  case printf.printf t u =>
    cases t <;> cases u <;> simp [Symbol.name, Target.printfName] at hlist ⊢
  case function.function | functionAlias.functionAlias | cell.cell | cellName.cellName =>
    simp only [Symbol.name, String.toList_append, List.append_cancel_left_eq] at hlist
    rw [String.toList_injective hlist]
  -- any two other families differ within their first two letters
  all_goals
    try cases ‹Target›
    all_goals simp [Symbol.name, Target.printfName, toList_controlName] at hlist ⊢

/-! ### Labels of code -/

/-- The symbol that an item defines. -/
def Item.label? : Item → Option Symbol
  | .label symbol => some symbol
  | _ => none

/-- The symbols that a piece of code defines, in the order of their definition. -/
def labels (items : List Item) : List Symbol := items.filterMap Item.label?

@[simp] theorem labels_nil : labels [] = [] := rfl

@[simp] theorem labels_label (symbol : Symbol) (items : List Item) :
    labels (.label symbol :: items) = symbol :: labels items := rfl

@[simp] theorem labels_instr (i : Instr) (items : List Item) :
    labels (.instr i :: items) = labels items := rfl

@[simp] theorem labels_directive (d : Directive) (items : List Item) :
    labels (.directive d :: items) = labels items := rfl

@[simp] theorem labels_append (items more : List Item) :
    labels (items ++ more) = labels items ++ labels more := List.filterMap_append

theorem mem_labels {symbol : Symbol} {items : List Item} :
    symbol ∈ labels items ↔ .label symbol ∈ items := by
  induction items with
  | nil => simp
  | cons item items ih => cases item <;> simp [ih]

/-- A label is found at the first place where it is defined. -/
theorem labelIndex?_append {before after : List Item} {symbol : Symbol}
    (h : symbol ∉ labels before) :
    Semantics.labelIndex? (before ++ .label symbol :: after) symbol.name =
      some before.length := by
  have hbefore : ∀ item ∈ before, Semantics.isLabel symbol.name item = false := by
    intro item hitem
    cases item with
    | label other =>
        simp only [Semantics.isLabel, beq_eq_false_iff_ne, ne_eq]
        intro hname
        rw [Symbol.name_injective hname] at hitem
        exact h (mem_labels.2 hitem)
    | directive d => rfl
    | instr i => rfl
  rw [Semantics.labelIndex?, List.findIdx?_append, List.findIdx?_eq_none_iff.2 hbefore]
  simp [List.findIdx?_cons, Semantics.isLabel]

end Asm

mutual

/-- The code of an expression defines no label. -/
@[simp] theorem Expr.labels_code (formals : List String) (t : Tables) (e : Expr) :
    labels (e.emit formals t).1 = [] := by
  cases e with
  | var name => rfl
  | lit value => rfl
  | call callee actuals =>
      rw [Expr.emit_call]
      unfold reserving
      split <;> simp [Expr.labels_codeActuals formals t 0 actuals]
  | binary op left right =>
      have hop : labels (operatorCode op) = [] := by cases op <;> rfl
      simp [Expr.emit_binary, Expr.labels_code formals t left,
        Expr.labels_code formals (left.emit formals t).2 right, hop]

theorem Expr.labels_codeActuals (formals : List String) (t : Tables) (index : Nat)
    (es : List Expr) : labels (Expr.emitActuals formals index es t).1 = [] := by
  cases es with
  | nil => rfl
  | cons e es =>
      simp [Expr.emitActuals_cons, storeActual, Expr.labels_code formals t e,
        Expr.labels_codeActuals formals (e.emit formals t).2 (index + 1) es]

end

/-- The labels of a piece of code are those of constructs with numbers from `first` up
to but not including `last`, each defined once. -/
structure OwnLabels (first last : Nat) (symbols : List Symbol) : Prop where
  range : ∀ symbol ∈ symbols, ∃ id part, symbol = .control id part ∧ first ≤ id ∧ id < last
  nodup : symbols.Nodup

namespace OwnLabels

theorem nil (first last : Nat) : OwnLabels first last [] :=
  ⟨fun _ h => absurd h List.not_mem_nil, List.nodup_nil⟩

theorem not_mem {first last : Nat} {symbols : List Symbol} (h : OwnLabels first last symbols)
    {id : Nat} (hid : id < first) (part : Part) : .control id part ∉ symbols := by
  intro hmem
  obtain ⟨id', part', heq, hle, -⟩ := h.range _ hmem
  cases heq
  omega

theorem append {first middle last : Nat} {symbols more : List Symbol}
    (h : OwnLabels first middle symbols) (h' : OwnLabels middle last more)
    (hfirst : first ≤ middle) (hlast : middle ≤ last) :
    OwnLabels first last (symbols ++ more) where
  range symbol hmem := by
    rcases List.mem_append.1 hmem with hmem | hmem
    · obtain ⟨id, part, rfl, hle, hlt⟩ := h.range _ hmem
      exact ⟨id, part, rfl, hle, by omega⟩
    · obtain ⟨id, part, rfl, hle, hlt⟩ := h'.range _ hmem
      exact ⟨id, part, rfl, by omega, hlt⟩
  nodup := by
    rw [List.nodup_append]
    refine ⟨h.nodup, h'.nodup, ?_⟩
    rintro symbol hsymbol other hother rfl
    obtain ⟨id, part, rfl, -, hlt⟩ := h.range _ hsymbol
    exact h'.not_mem hlt part hother

/-- A construct adds the labels of its own number, which the code inside it cannot
define. -/
theorem construct {id last : Nat} {inner symbols : List Symbol} (parts : List Part)
    (h : OwnLabels (id + 1) last inner) (hlast : id < last) (hparts : parts.Nodup)
    (hperm : symbols.Perm (parts.map (.control id) ++ inner)) : OwnLabels id last symbols where
  range symbol hmem := by
    rcases List.mem_append.1 (hperm.mem_iff.1 hmem) with hmem | hmem
    · obtain ⟨part, -, rfl⟩ := List.mem_map.1 hmem
      exact ⟨id, part, rfl, Nat.le_refl _, hlast⟩
    · obtain ⟨id', part, rfl, hle, hlt⟩ := h.range _ hmem
      exact ⟨id', part, rfl, by omega, hlt⟩
  nodup := by
    rw [hperm.nodup_iff, List.nodup_append]
    refine ⟨List.Nodup.map (fun _ _ heq => (Symbol.control.inj heq).2) hparts, h.nodup, ?_⟩
    rintro symbol hsymbol other hother rfl
    obtain ⟨part, -, rfl⟩ := List.mem_map.1 hsymbol
    exact h.not_mem (Nat.lt_succ_self id) part hother

end OwnLabels

mutual

theorem Stmt.ownLabels (target : Target) (formals : List String) (t : Tables) (s : Stmt) :
    OwnLabels t.labels (s.emit target formals t).2.labels (labels (s.emit target formals t).1) := by
  cases s with
  | assign name value =>
      rw [Stmt.emit_assign]
      simpa using OwnLabels.nil ..
  | print value =>
      rw [Stmt.emit_print]
      simpa [printCode] using OwnLabels.nil ..
  | ret value =>
      rw [Stmt.emit_ret]
      simpa [leaveFrame] using OwnLabels.nil ..
  | block body => exact Stmt.ownLabels_all target formals t body
  | ifThen cond yes =>
      have hid := Expr.labels_emit formals t cond
      have hyes := Stmt.ownLabels target formals (freshLabel (cond.emit formals t).2).2 yes
      have hgrow := (Stmt.grows_emit target formals (freshLabel (cond.emit formals t).2).2 yes).labels
      simp only [Stmt.emit_ifThen, freshLabel, hid] at hyes hgrow ⊢
      refine hyes.construct [.yes, .no, .last] (by omega) (by decide) ?_
      simp only [labels_append, labels_label, labels_instr, labels_nil, jumpIfZero,
        Expr.labels_code, List.map_cons, List.map_nil]
      grind
  | ifElse cond yes no =>
      have hid := Expr.labels_emit formals t cond
      have hyes := Stmt.ownLabels target formals (freshLabel (cond.emit formals t).2).2 yes
      have hgrow := (Stmt.grows_emit target formals (freshLabel (cond.emit formals t).2).2 yes).labels
      have hno := Stmt.ownLabels target formals
        (yes.emit target formals (freshLabel (cond.emit formals t).2).2).2 no
      have hgrow' := (Stmt.grows_emit target formals
        (yes.emit target formals (freshLabel (cond.emit formals t).2).2).2 no).labels
      simp only [Stmt.emit_ifElse, freshLabel, hid] at hyes hgrow hno hgrow' ⊢
      refine (hyes.append hno hgrow hgrow').construct [.yes, .no, .last] (by omega) (by decide) ?_
      simp only [labels_append, labels_label, labels_instr, labels_nil, jumpIfZero,
        Expr.labels_code, List.map_cons, List.map_nil]
      grind
  | loop cond body =>
      have hid := Expr.labels_emit formals (freshLabel t).2 cond
      have hbody := Stmt.ownLabels target formals (cond.emit formals (freshLabel t).2).2 body
      have hgrow := (Stmt.grows_emit target formals (cond.emit formals (freshLabel t).2).2 body).labels
      rw [hid] at hbody hgrow
      refine hbody.construct [.first, .last] hgrow (by decide) ?_
      simp only [Stmt.emit_loop, labels_append, labels_label, labels_instr, labels_nil, jumpIfZero,
        Expr.labels_code, List.map_cons, List.map_nil]
      grind

theorem Stmt.ownLabels_all (target : Target) (formals : List String) (t : Tables)
    (ss : List Stmt) :
    OwnLabels t.labels (Stmt.emitAll target formals ss t).2.labels
      (labels (Stmt.emitAll target formals ss t).1) := by
  cases ss with
  | nil => exact .nil ..
  | cons s ss =>
      rw [Stmt.emitAll_cons, labels_append]
      exact (Stmt.ownLabels target formals t s).append (Stmt.ownLabels_all target formals _ ss)
        (Stmt.grows_emit target formals t s).labels (Stmt.grows_emitAll target formals _ ss).labels

end

namespace Function

theorem labels_code (target : Target) (t : Tables) (f : Function) :
    labels (f.emit target t).1 =
      .function f.name :: .functionAlias f.name :: labels (f.body.emit target f.formals t).1 := by
  simp [emit_eq, enterFrame, leaveFrame]

/-- The labels of functions are their own two and those of their constructs. -/
theorem of_mem_labels {target : Target} {t : Tables} {fs : List Function} {symbol : Symbol}
    (h : symbol ∈ labels (emitAll target fs t).1) :
    (∃ id part, symbol = .control id part ∧ t.labels ≤ id ∧
        id < (emitAll target fs t).2.labels) ∨
      ∃ f ∈ fs, symbol = .function f.name ∨ symbol = .functionAlias f.name := by
  induction fs generalizing t with
  | nil => simp [emitAll_nil] at h
  | cons f fs ih =>
      have hgrow := (f.grows_emit target t).labels
      have hgrow' := (grows_emitAll target (f.emit target t).2 fs).labels
      rw [emitAll_cons] at h ⊢
      simp only [labels_append, labels_code, List.mem_append, List.mem_cons] at h
      rcases h with (rfl | rfl | h) | h
      · exact .inr ⟨f, List.mem_cons_self .., .inl rfl⟩
      · exact .inr ⟨f, List.mem_cons_self .., .inr rfl⟩
      · obtain ⟨id, part, rfl, hle, hlt⟩ := (Stmt.ownLabels target f.formals t f.body).range _ h
        exact .inl ⟨id, part, rfl, hle, Nat.lt_of_lt_of_le hlt hgrow'⟩
      · rcases ih h with ⟨id, part, rfl, hle, hlt⟩ | ⟨g, hg, heq⟩
        · exact .inl ⟨id, part, rfl, Nat.le_trans hgrow hle, hlt⟩
        · exact .inr ⟨g, List.mem_cons_of_mem _ hg, heq⟩

theorem nodup_labels {target : Target} {t : Tables} {fs : List Function}
    (h : (fs.map (·.name)).Nodup) : (labels (emitAll target fs t).1).Nodup := by
  induction fs generalizing t with
  | nil => simp [emitAll_nil]
  | cons f fs ih =>
      obtain ⟨hf, hfs⟩ := List.nodup_cons.1 h
      have hbody := Stmt.ownLabels target f.formals t f.body
      have hother : ∀ g ∈ fs, g.name ≠ f.name := fun g hg heq => hf (List.mem_map.2 ⟨g, hg, heq⟩)
      rw [emitAll_cons, labels_append, List.nodup_append]
      refine ⟨?_, ih hfs, ?_⟩
      · rw [labels_code]
        have hcontrol : ∀ symbol ∈ labels (f.body.emit target f.formals t).1,
            ∃ id part, symbol = .control id part := fun symbol hsymbol =>
          (hbody.range symbol hsymbol).imp fun _ ⟨part, heq, _⟩ => ⟨part, heq⟩
        refine List.nodup_cons.2 ⟨fun hmem => ?_, List.nodup_cons.2 ⟨fun hmem => ?_, hbody.nodup⟩⟩
        · obtain ⟨id, part, heq⟩ := hcontrol _ (by simpa using hmem)
          cases heq
        · obtain ⟨id, part, heq⟩ := hcontrol _ hmem
          cases heq
      · rintro symbol hsymbol other hlater rfl
        rw [labels_code] at hsymbol
        rcases of_mem_labels hlater with ⟨id, part, rfl, hle, -⟩ | ⟨g, hg, rfl | rfl⟩
        · obtain ⟨id', part', heq, -, hlt⟩ := hbody.range (.control id part) (by simpa using hsymbol)
          cases heq
          exact absurd hlt (Nat.not_lt.2 hle)
        · simp only [List.mem_cons, Symbol.function.injEq, reduceCtorEq, false_or] at hsymbol
          rcases hsymbol with heq | hsymbol
          · exact hother g hg heq
          · obtain ⟨id, part, heq, -⟩ := hbody.range _ hsymbol
            cases heq
        · simp only [List.mem_cons, Symbol.functionAlias.injEq, reduceCtorEq, false_or] at hsymbol
          rcases hsymbol with heq | hsymbol
          · exact hother g hg heq
          · obtain ⟨id, part, heq, -⟩ := hbody.range _ hsymbol
            cases heq

end Function

end FunCompiler
