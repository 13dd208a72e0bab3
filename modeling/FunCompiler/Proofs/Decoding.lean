import FunCompiler.Asm.Decode
import FunCompiler.Proofs.Accounting
import FunCompiler.Proofs.Globals
import FunCompiler.Proofs.Pipeline
import FunCompiler.Proofs.Source.Soundness

/-!
Reading generated assembly back. Blanks, commas and line feeds divide a rendered
line into words, operands and lines, and no word or operand of generated code
has one of them inside (`isSolid`): names from a source text are identifiers,
and all else that is written is made of digits and fixed texts. So the text of a
listing determines its lines. A line in turn determines the item that it stands
for (`Item.line_injective`), and with it the listing's code.
-/

namespace FunCompiler

open Asm Code

namespace Asm

/-- The text has no blank, comma or line feed. -/
def isSolid (s : String) : Bool := s.toList.all fun c => c != ' ' && c != ',' && c != '\n'

theorem isSolid_iff {s : String} :
    isSolid s = true ↔ ' ' ∉ s.toList ∧ ',' ∉ s.toList ∧ '\n' ∉ s.toList := by
  simp only [isSolid, List.all_eq_true, Bool.and_eq_true, bne_iff_ne]
  grind

@[simp] theorem isSolid_append (s t : String) : isSolid (s ++ t) = (isSolid s && isSolid t) := by
  simp [isSolid]

/-- The line is read back as itself: its parts are solid, and its first word tells a directive
from an instruction. -/
structure Line.IsSolid (l : Line) : Prop where
  mnemonic : isSolid l.mnemonic = true
  operands : ∀ o ∈ l.operands, isSolid o = true
  label : l.kind = .label → l.operands = []
  kind : l.kind ≠ .label → kindOf l.mnemonic.toList = l.kind

/-! ### Operands -/

theorem splitOperands_solid {cs : List Char} (h : ',' ∉ cs) : splitOperands cs = [cs] := by
  induction cs with
  | nil => rfl
  | cons c cs ih =>
      obtain ⟨hc, hcs⟩ := not_or.1 (mt List.mem_cons.2 h)
      rw [splitOperands, ih hcs]
      rintro _ rfl _
      exact hc rfl

theorem splitOperands_append {cs : List Char} (h : ',' ∉ cs) (rest : List Char) :
    splitOperands (cs ++ ',' :: ' ' :: rest) = cs :: splitOperands rest := by
  induction cs with
  | nil => rfl
  | cons c cs ih =>
      obtain ⟨hc, hcs⟩ := not_or.1 (mt List.mem_cons.2 h)
      rw [List.cons_append, splitOperands, ih hcs]
      rintro _ rfl _
      exact hc rfl

theorem splitOperands_intercalate {o : String} {os : List String}
    (h : ∀ s ∈ o :: os, isSolid s = true) :
    splitOperands (", ".intercalate (o :: os)).toList = (o :: os).map String.toList := by
  induction os generalizing o with
  | nil =>
      obtain ⟨-, hcomma, -⟩ := isSolid_iff.1 (h o (List.mem_cons_self ..))
      rw [String.intercalate_singleton, splitOperands_solid hcomma]
      rfl
  | cons o' os ih =>
      obtain ⟨ho, hrest⟩ := List.forall_mem_cons.1 h
      obtain ⟨-, hcomma, -⟩ := isSolid_iff.1 ho
      have htext : (", ".intercalate (o :: o' :: os)).toList =
          o.toList ++ ',' :: ' ' :: (", ".intercalate (o' :: os)).toList := by
        rw [String.intercalate_cons_cons, String.toList_append, String.toList_append,
          List.append_assoc]
        rfl
      rw [htext, splitOperands_append hcomma, ih hrest]
      rfl

theorem newline_not_mem_intercalate {os : List String} (h : ∀ s ∈ os, isSolid s = true) :
    '\n' ∉ (", ".intercalate os).toList := by
  induction os with
  | nil => simp
  | cons o os ih =>
      obtain ⟨ho, hrest⟩ := List.forall_mem_cons.1 h
      have hline := (isSolid_iff.1 ho).2.2
      cases os with
      | nil => rwa [String.intercalate_singleton]
      | cons o' os =>
          rw [String.intercalate_cons_cons, String.toList_append, String.toList_append,
            List.mem_append, List.mem_append, not_or, not_or]
          exact ⟨⟨hline, by simp⟩, ih hrest⟩

/-! ### Lines -/

theorem not_blank_of_isSolid {word : String} (h : isSolid word = true) :
    ∀ c ∈ word.toList, decide (c ≠ ' ') = true := by
  intro c hc
  refine decide_eq_true ?_
  rintro rfl
  exact (isSolid_iff.1 h).1 hc

theorem decodeIndented_word {word : String} (h : isSolid word = true) :
    decodeIndented word.toList = ⟨kindOf word.toList, word, []⟩ := by
  have hword := not_blank_of_isSolid h
  have hstops : Stops (· ≠ ' ') [] := nofun
  have htake := takeWhile_append_stops hword hstops
  have hdrop := dropWhile_append_stops hword hstops
  rw [List.append_nil] at htake hdrop
  rw [decodeIndented, htake, hdrop, String.ofList_toList]

theorem decodeIndented_operands {word : String} (h : isSolid word = true) (rest : List Char) :
    decodeIndented (word.toList ++ ' ' :: rest) =
      ⟨kindOf word.toList, word, (splitOperands rest).map String.ofList⟩ := by
  have hword := not_blank_of_isSolid h
  have hstops : Stops (· ≠ ' ') (' ' :: rest) := stops_cons rfl rest
  rw [decodeIndented, takeWhile_append_stops hword hstops, dropWhile_append_stops hword hstops,
    String.ofList_toList]

theorem decodeLine_indented (cs : List Char) :
    decodeLine ("    ".toList ++ cs) = decodeIndented cs := rfl

theorem decodeLine_label {name : String} (h : isSolid name = true) :
    decodeLine (name ++ ":").toList = ⟨.label, name, []⟩ := by
  have hblank := (isSolid_iff.1 h).1
  rw [String.toList_append]
  unfold decodeLine
  split
  · rename_i cs heq
    cases hname : name.toList with
    | nil => simp [hname] at heq
    | cons c rest => simp_all
  · simp

namespace Line

variable {l : Line}

theorem text_label (h : l.kind = .label) : l.text = l.mnemonic ++ ":" := by
  simp [text, h]

theorem text_word (hkind : l.kind ≠ .label) (h : l.operands = []) :
    l.text = "    " ++ l.mnemonic := by
  obtain ⟨kind, mnemonic, operands⟩ := l
  cases h
  cases kind <;> simp_all [text]

theorem text_operands (hkind : l.kind ≠ .label) {o : String} {os : List String}
    (h : l.operands = o :: os) :
    l.text = "    " ++ (l.mnemonic ++ (" " ++ ", ".intercalate (o :: os))) := by
  obtain ⟨kind, mnemonic, operands⟩ := l
  cases h
  cases kind <;> simp_all [text, String.append_assoc]

theorem decodeLine_text (h : l.IsSolid) : decodeLine l.text.toList = l := by
  by_cases hlabel : l.kind = .label
  · rw [text_label hlabel, decodeLine_label h.mnemonic, ← hlabel, ← h.label hlabel]
  · cases hoperands : l.operands with
    | nil =>
        rw [text_word hlabel hoperands, String.toList_append, decodeLine_indented,
          decodeIndented_word h.mnemonic, h.kind hlabel, ← hoperands]
    | cons o os =>
        have hsolid : ∀ s ∈ o :: os, isSolid s = true := hoperands ▸ h.operands
        rw [text_operands hlabel hoperands, String.toList_append, String.toList_append,
          decodeLine_indented, String.toList_append]
        have hrest := decodeIndented_operands h.mnemonic (", ".intercalate (o :: os)).toList
        rw [splitOperands_intercalate hsolid, List.map_map, h.kind hlabel] at hrest
        refine hrest.trans ?_
        simp [← hoperands]

theorem newline_not_mem_text (h : l.IsSolid) : '\n' ∉ l.text.toList := by
  have hmnemonic := (isSolid_iff.1 h.mnemonic).2.2
  by_cases hlabel : l.kind = .label
  · simp [text_label hlabel, hmnemonic]
  · cases hoperands : l.operands with
    | nil => simp [text_word hlabel hoperands, hmnemonic]
    | cons o os =>
        have hrest := newline_not_mem_intercalate (hoperands ▸ h.operands)
        simp only [text_operands hlabel hoperands, String.toList_append, List.mem_append, hmnemonic,
          hrest]
        simp

end Line

theorem splitLines_append {line : List Char} (h : '\n' ∉ line) (rest : List Char) :
    splitLines (line ++ '\n' :: rest) = line :: splitLines rest := by
  induction line with
  | nil => rfl
  | cons c line ih =>
      obtain ⟨hc, hline⟩ := not_or.1 (mt List.mem_cons.2 h)
      rw [List.cons_append, splitLines, if_neg (Ne.symm hc), ih hline]

theorem decode_render {lines : List Line} (h : ∀ l ∈ lines, l.IsSolid) :
    decode (render lines) = lines := by
  unfold decode render
  induction lines with
  | nil => rfl
  | cons l lines ih =>
      obtain ⟨hl, hlines⟩ := List.forall_mem_cons.1 h
      have htext : (String.join ((l :: lines).map fun l => l.text ++ "\n")).toList =
          l.text.toList ++ '\n' :: (String.join (lines.map fun l => l.text ++ "\n")).toList := by
        simp
      rw [htext, splitLines_append (Line.newline_not_mem_text hl), List.map_cons,
        Line.decodeLine_text hl, ih hlines]

/-! ### What a line stands for -/

theorem toString_injective {v w : Int} (h : toString v = toString w) : v = w := by
  have hlist := congrArg String.toList h
  have hminus (m n : Nat) : Nat.toDigits 10 m ≠ '-' :: Nat.toDigits 10 n := by
    intro h
    cases isDigit_toDigits m '-' (h ▸ List.mem_cons_self ..)
  rw [toList_toString, toList_toString] at hlist
  split at hlist <;> split at hlist
  · have := toDigits_injective hlist
    omega
  · exact absurd hlist (hminus _ _)
  · exact absurd hlist.symm (hminus _ _)
  · have := toDigits_injective (List.tail_eq_of_cons_eq hlist)
    omega

theorem Register.name_injective {r q : Register} (h : r.name = q.name) : r = q := by
  cases r <;> cases q <;> first | rfl | exact absurd h (by decide)

namespace Operand

theorem eq_cell_of_text {o : Operand} {symbol : Symbol} (h : o.text = (cell symbol).text) :
    o = cell symbol := by
  obtain ⟨other, hmem, hname⟩ := text_eq_iff.1 h
  cases o with
  | cell s =>
      cases List.mem_singleton.1 hmem
      rw [Symbol.name_injective hname]
  | _ => cases hmem

theorem eq_stack_of_text {o : Operand} {offset : Int} {base : Register}
    (h : o.text = (stack offset base).text) : o = stack offset base := by
  have hparen : '(' ∈ o.text.toList := by
    rw [h, toList_text_stack]
    simp
  cases o with
  | immediate v =>
      rw [toList_text_immediate, List.mem_cons] at hparen
      exact absurd (hparen.resolve_left (by decide)) (not_mem_toString rfl (by decide) v)
  | register r => cases r <;> exact absurd hparen (by decide)
  | stack offset' base' =>
      have hlist := congrArg String.toList h
      rw [toList_text_stack, toList_text_stack] at hlist
      obtain ⟨hoffset, hbase⟩ := List.append_inj' hlist (by simp [Register.length_name])
      have hname : base'.name = base.name := by simpa [String.toList_inj] using hbase
      rw [toString_injective (String.toList_inj.1 hoffset), Register.name_injective hname]
  | cell symbol => exact (eq_cell_of_text h.symm).symm

theorem text_immediate_ne_register (v : Int) (r : Register) :
    (immediate v).text ≠ (register r).text := by
  intro h
  have hdollar : '$' ∈ (register r).text.toList := by
    rw [← h, toList_text_immediate]
    exact List.mem_cons_self ..
  cases r <;> exact absurd hdollar (by decide)

theorem text_injective {o p : Operand} (h : o.text = p.text) : o = p := by
  cases p with
  | cell symbol => exact eq_cell_of_text h
  | stack offset base => exact eq_stack_of_text h
  | immediate v =>
      cases o with
      | cell symbol => exact (eq_cell_of_text h.symm).symm
      | stack offset base => exact (eq_stack_of_text h.symm).symm
      | immediate w =>
          have hlist := congrArg String.toList h
          rw [toList_text_immediate, toList_text_immediate, List.cons_inj_right,
            String.toList_inj] at hlist
          rw [toString_injective hlist]
      | register r => exact absurd h.symm (text_immediate_ne_register v r)
  | register r =>
      cases o with
      | cell symbol => exact (eq_cell_of_text h.symm).symm
      | stack offset base => exact (eq_stack_of_text h.symm).symm
      | immediate v => exact absurd h (text_immediate_ne_register v r)
      | register q => rw [Register.name_injective h]

end Operand

theorem Condition.suffix_injective {c d : Condition} (h : c.suffix = d.suffix) : c = d := by
  cases c <;> cases d <;> first | rfl | exact absurd h (by decide)

namespace Instr

theorem eq_set_of_mnemonic {i : Instr} {c : Condition}
    (h : i.mnemonic = (set c).mnemonic) : i = set c := by
  cases i with
  | set d =>
      have hsuffix : d.suffix = c.suffix := by simpa [mnemonic] using h
      rw [Condition.suffix_injective hsuffix]
  | _ => cases c <;> simp [mnemonic, Condition.suffix] at h

theorem eq_of_mnemonic_of_operands {i j : Instr} (hmnemonic : i.mnemonic = j.mnemonic)
    (hoperands : i.operands = j.operands) : i = j := by
  by_cases hset : ∃ c, j = .set c
  · obtain ⟨c, rfl⟩ := hset
    exact eq_set_of_mnemonic hmnemonic
  · -- The other mnemonics are distinct, so both have the same constructor.
    have hnot : ∀ c, i ≠ .set c := by
      rintro c rfl
      exact hset ⟨c, eq_set_of_mnemonic hmnemonic.symm⟩
    cases i <;> cases j <;> simp [mnemonic] at hmnemonic hset hnot <;>
      simp only [operands, List.cons.injEq, and_true] at hoperands <;>
      grind [Operand.text_injective, Register.name_injective, Symbol.name_injective]

end Instr

theorem Directive.eq_of_mnemonic_of_operands {d e : Directive}
    (hmnemonic : d.mnemonic = e.mnemonic) (hoperands : d.operands = e.operands) : d = e := by
  cases d <;> cases e <;> simp [mnemonic] at hmnemonic
  case text.text => rfl
  case data.data => rfl
  case global.global =>
      rw [Symbol.name_injective (List.head_eq_of_cons_eq hoperands)]
  case quad.quad =>
      rw [toString_injective (List.head_eq_of_cons_eq hoperands)]
  case string.string s t =>
      have : "\"" ++ s ++ "\"" = "\"" ++ t ++ "\"" := List.head_eq_of_cons_eq hoperands
      simp at this
      rw [this]

theorem Item.line_injective {a b : Item} (h : a.line = b.line) : a = b := by
  cases a <;> cases b <;> simp [Item.line] at h
  case directive.directive => rw [Directive.eq_of_mnemonic_of_operands h.1 h.2]
  case label.label => rw [Symbol.name_injective h]
  case instr.instr => rw [Instr.eq_of_mnemonic_of_operands h.1 h.2]

/-! ### Solid items -/

theorem isSolid_toString (v : Int) : isSolid (toString v) = true :=
  isSolid_iff.2 ⟨not_mem_toString rfl (by decide) v, not_mem_toString rfl (by decide) v,
    not_mem_toString rfl (by decide) v⟩

theorem Register.isSolid_name (r : Register) : isSolid r.name = true := by
  cases r <;> rfl

theorem Operand.isSolid_text {o : Operand}
    (h : ∀ symbol ∈ o.mentions, isSolid symbol.name = true) : isSolid o.text = true := by
  cases o with
  | immediate v =>
      show isSolid ("$" ++ toString v) = true
      rw [isSolid_append, isSolid_toString]
      rfl
  | register r => exact r.isSolid_name
  | stack offset base =>
      show isSolid (toString offset ++ "(" ++ base.name ++ ")") = true
      rw [isSolid_append, isSolid_append, isSolid_append, isSolid_toString, base.isSolid_name]
      rfl
  | cell symbol =>
      show isSolid (symbol.name ++ "(%rip)") = true
      rw [isSolid_append, h symbol (List.mem_singleton_self _)]
      rfl

theorem Directive.isSolid_mnemonic (d : Directive) :
    isSolid d.mnemonic = true ∧ kindOf d.mnemonic.toList = .directive := by
  cases d <;> simp [Directive.mnemonic, isSolid, kindOf]

theorem Instr.isSolid_mnemonic (i : Instr) :
    isSolid i.mnemonic = true ∧ kindOf i.mnemonic.toList = .instruction := by
  cases i with
  | set c => cases c <;> simp [Instr.mnemonic, Condition.suffix, isSolid, kindOf]
  | _ => simp [Instr.mnemonic, isSolid, kindOf]

theorem Instr.isSolid_operands {i : Instr}
    (h : ∀ symbol ∈ i.mentions, isSolid symbol.name = true) :
    ∀ o ∈ i.operands, isSolid o = true := by
  have hpair {s d : Operand} (h : ∀ symbol ∈ s.mentions ++ d.mentions, isSolid symbol.name = true) :
      ∀ o ∈ [s.text, d.text], isSolid o = true := by
    obtain ⟨hs, hd⟩ := List.forall_mem_append.1 h
    simp [Operand.isSolid_text hs, Operand.isSolid_text hd]
  cases i with
  | mov s d => exact hpair h
  | add s d => exact hpair h
  | sub s d => exact hpair h
  | and s d => exact hpair h
  | cmp r l => exact hpair h
  | push r => simp [Instr.operands, r.isSolid_name]
  | pop r => simp [Instr.operands, r.isSolid_name]
  | mul r => simp [Instr.operands, r.isSolid_name]
  | set c => simp [Instr.operands, isSolid]
  | widen => simp [Instr.operands, isSolid]
  | lea symbol r =>
      have hcell : isSolid (Operand.cell symbol).text = true := Operand.isSolid_text h
      simp [Instr.operands, r.isSolid_name, hcell]
  | jmp l => exact List.forall_mem_singleton.2 (h l (List.mem_singleton_self _))
  | je l => exact List.forall_mem_singleton.2 (h l (List.mem_singleton_self _))
  | call f => exact List.forall_mem_singleton.2 (h f (List.mem_singleton_self _))
  | ret => rintro _ ⟨⟩

/-- An item is written with solid parts if the symbols in it have solid names, and so has the
string that it may be. -/
theorem Item.isSolid_line {item : Item}
    (hmentions : ∀ symbol ∈ item.mentions, isSolid symbol.name = true)
    (hlabel : ∀ symbol ∈ item.label?, isSolid symbol.name = true)
    (hstring : ∀ s, item = .directive (.string s) → isSolid s = true) : item.line.IsSolid := by
  cases item with
  | directive d =>
      refine ⟨d.isSolid_mnemonic.1, ?_, nofun, fun _ => d.isSolid_mnemonic.2⟩
      cases d with
      | text => rintro _ ⟨⟩
      | data => rintro _ ⟨⟩
      | global symbol =>
          exact List.forall_mem_singleton.2 (hmentions symbol (List.mem_singleton_self _))
      | quad v => exact List.forall_mem_singleton.2 (isSolid_toString v)
      | string s =>
          refine List.forall_mem_singleton.2 ?_
          show isSolid ("\"" ++ s ++ "\"") = true
          rw [isSolid_append, isSolid_append, hstring s rfl]
          rfl
  | label symbol =>
      exact ⟨hlabel symbol rfl, nofun, fun _ => rfl, fun h => absurd rfl h⟩
  | instr i =>
      exact ⟨i.isSolid_mnemonic.1, Instr.isSolid_operands hmentions, nofun,
        fun _ => i.isSolid_mnemonic.2⟩

end Asm

/-! ### Names -/

theorem Asm.isSolid_of_isIdentifier {name : String} (h : Source.isIdentifier name = true) :
    isSolid name = true := by
  obtain ⟨-, -, -, -, hparts⟩ := Source.exists_of_isIdentifier h
  refine isSolid_iff.2 ⟨fun hmem => ?_, fun hmem => ?_, fun hmem => ?_⟩ <;>
    exact absurd (hparts _ hmem) (by decide)

/-- The part of a symbol's name that comes from the program. -/
def Asm.Symbol.given? : Symbol → Option String
  | .function f => some f
  | .functionAlias f => some f
  | .cell v => some v
  | .cellName v => some v
  | _ => none

theorem Asm.Symbol.isSolid_name {symbol : Symbol}
    (h : ∀ name ∈ symbol.given?, Source.isIdentifier name = true) :
    isSolid symbol.name = true := by
  have hgiven {front name : String} (hfront : isSolid front = true)
      (hname : Source.isIdentifier name = true) : isSolid (front ++ name) = true := by
    rw [isSolid_append, hfront, isSolid_of_isIdentifier hname]
    rfl
  cases symbol with
  | function f => exact hgiven rfl (h f rfl)
  | functionAlias f => exact hgiven rfl (h f rfl)
  | cell v => exact hgiven rfl (h v rfl)
  | cellName v => exact hgiven rfl (h v rfl)
  | control id part =>
      show isSolid ("L" ++ toString (id : Int) ++ "_" ++ part.name) = true
      rw [isSolid_append, isSolid_append, isSolid_append, isSolid_toString]
      cases part <;> rfl
  | printf target => cases target <;> rfl
  | _ => rfl

/-- The name that a node reads or assigns to. -/
def Node.variable? : Node → Option String
  | .expr (.var name) => some name
  | .stmt (.assign target _) => some target
  | _ => none

theorem Node.isIdentifier_of_variable? {node : Node} (hnode : node.isReadable = true) {v : String}
    (h : node.variable? = some v) : Source.isIdentifier v = true := by
  unfold Node.variable? at h
  split at h
  · cases h
    exact hnode
  · cases h
    exact hnode
  · cases h

mutual

theorem Expr.names_subset (e : Expr) : e.names ⊆ e.walk.filterMap Node.variable? := by
  cases e with
  | var name => simp [Expr.names, Expr.walk, Node.variable?]
  | lit value => simp [Expr.names]
  | call callee actuals =>
      have hactuals := Expr.namesAll_subset actuals
      simp only [Expr.names, Expr.walk, Node.variable?, List.filterMap_cons]
      exact hactuals
  | binary op left right =>
      have hleft := Expr.names_subset left
      have hright := Expr.names_subset right
      simp only [Expr.names, Expr.walk, List.cons_append, List.filterMap_cons, Node.variable?,
        List.filterMap_append]
      grind

theorem Expr.namesAll_subset (es : List Expr) :
    Expr.namesAll es ⊆ (Expr.walkAll es).filterMap Node.variable? := by
  cases es with
  | nil => simp [Expr.namesAll]
  | cons e es =>
      have hfirst := Expr.names_subset e
      have hrest := Expr.namesAll_subset es
      simp only [Expr.namesAll, Expr.walkAll, List.filterMap_append]
      grind

end

mutual

theorem Stmt.names_subset (s : Stmt) : s.names ⊆ s.walk.filterMap Node.variable? := by
  cases s with
  | assign target value =>
      have hvalue := Expr.names_subset value
      simp only [Stmt.names, Stmt.walk, List.filterMap_cons, Node.variable?]
      grind
  | print value => exact Expr.names_subset value
  | ret value => exact Expr.names_subset value
  | ifThen cond yes =>
      have hcond := Expr.names_subset cond
      have hyes := Stmt.names_subset yes
      simp only [Stmt.names, Stmt.walk, List.cons_append, List.filterMap_cons, Node.variable?,
        List.filterMap_append]
      grind
  | ifElse cond yes no =>
      have hcond := Expr.names_subset cond
      have hyes := Stmt.names_subset yes
      have hno := Stmt.names_subset no
      simp only [Stmt.names, Stmt.walk, List.cons_append, List.filterMap_cons, Node.variable?,
        List.filterMap_append]
      grind
  | loop cond body =>
      have hcond := Expr.names_subset cond
      have hbody := Stmt.names_subset body
      simp only [Stmt.names, Stmt.walk, List.cons_append, List.filterMap_cons, Node.variable?,
        List.filterMap_append]
      grind
  | block body => exact Stmt.namesAll_subset body

theorem Stmt.namesAll_subset (ss : List Stmt) :
    Stmt.namesAll ss ⊆ (Stmt.walkAll ss).filterMap Node.variable? := by
  cases ss with
  | nil => simp [Stmt.namesAll]
  | cons s ss =>
      have hfirst := Stmt.names_subset s
      have hrest := Stmt.namesAll_subset ss
      simp only [Stmt.namesAll, Stmt.walkAll, List.filterMap_append]
      grind

end

/-! ### Listings -/

/-- The lines of a listing determine its code. -/
theorem Listing.items_eq_of_lines_eq {a b : Listing} (h : a.lines = b.lines) : a.items = b.items :=
  List.map_injective_iff.2 (fun _ _ => Item.line_injective) h

namespace Program

variable {target : Target} {p : Program}

theorem mem_walk_function {f : Function} (hf : f ∈ p.functions) : .function f ∈ p.walk :=
  List.mem_cons_of_mem _ (List.mem_flatMap.2 ⟨f, hf, List.mem_cons_self ..⟩)

theorem isIdentifier_of_mem_globals (hp : ∀ node ∈ p.walk, node.isReadable = true) {v : String}
    (h : v ∈ (p.globals target).names) : Source.isIdentifier v = true := by
  rw [names_globals, List.mem_eraseDups] at h
  obtain ⟨f, hf, hv⟩ := List.mem_flatMap.1 h
  obtain ⟨node, hnode, hvariable⟩ :=
    List.mem_filterMap.1 (f.body.names_subset (List.mem_filter.1 hv).1)
  refine Node.isIdentifier_of_variable? (hp node ?_) hvariable
  exact List.mem_cons_of_mem _ (List.mem_flatMap.2 ⟨f, hf, List.mem_cons_of_mem _ hnode⟩)

/-- What a listing of a program read from a text takes from it are identifiers. -/
theorem isIdentifier_label (hp : ∀ node ∈ p.walk, node.isReadable = true) {symbol : Symbol}
    (h : symbol ∈ labels (p.generate target).items) :
    ∀ name ∈ symbol.given?, Source.isIdentifier name = true := by
  rw [labels_generate] at h
  rcases List.mem_append.1 h with huser | hfixed
  · rcases Function.of_mem_labels huser with ⟨id, part, rfl, -⟩ | ⟨f, hf, hsymbol⟩
    · rintro _ ⟨⟩
    · have hname : Source.isIdentifier f.name = true :=
        (Bool.and_eq_true_iff.1 (hp _ (mem_walk_function hf))).1
      rcases hsymbol with rfl | rfl <;> rintro _ ⟨rfl⟩ <;> exact hname
  · rcases List.mem_append.1 hfixed with hentry | hdata
    · intro name hname
      simp only [List.mem_cons, List.not_mem_nil, or_false] at hentry
      rcases hentry with rfl | rfl | rfl <;> cases hname
    · rcases List.mem_append.1 hdata with hcell | hcell <;>
        obtain ⟨v, hv, rfl⟩ := List.mem_map.1 hcell <;> rintro _ ⟨rfl⟩ <;>
        exact isIdentifier_of_mem_globals hp hv

theorem isIdentifier_mention (hp : ∀ node ∈ p.walk, node.isReadable = true) {symbol : Symbol}
    (h : symbol ∈ mentions (p.generate target).items) :
    ∀ name ∈ symbol.given?, Source.isIdentifier name = true := by
  rcases defined_or_needed h with hlabel | rfl | ⟨node, hnode, hneeds⟩
  · exact isIdentifier_label hp hlabel
  · rintro _ ⟨rfl⟩
    rfl
  · have hreadable := hp node hnode
    unfold Node.needs at hneeds
    split at hneeds
    · cases List.mem_singleton.1 hneeds
      rintro _ ⟨rfl⟩
      exact hreadable
    · cases List.mem_singleton.1 hneeds
      rintro _ ⟨⟩
    · cases hneeds

/-- The strings of a listing are the format of `print` and the names of the globals. -/
theorem string_mem_cases {s : String}
    (h : .directive (.string s) ∈ (p.generate target).items) :
    s = printFormat ∨ s ∈ (p.globals target).names := by
  rw [generate_items, ← List.append_assoc] at h
  rcases List.mem_append.1 h with hcode | hdata
  · rcases isPlain_or_directive hcode with hplain | htext | ⟨symbol, hglobal, -⟩
    · exact hplain.elim
    · cases htext
    · cases hglobal
  · simpa [Globals.data, Globals.cell, Globals.label] using hdata

theorem isSolid_lines (hp : ∀ node ∈ p.walk, node.isReadable = true) :
    ∀ l ∈ (p.generate target).lines, l.IsSolid := by
  intro l hl
  obtain ⟨item, hitem, rfl⟩ := List.mem_map.1 hl
  refine Item.isSolid_line (fun symbol hsymbol => ?_) (fun symbol hsymbol => ?_) (fun s hs => ?_)
  · exact Symbol.isSolid_name (isIdentifier_mention hp (List.mem_flatMap.2 ⟨item, hitem, hsymbol⟩))
  · exact Symbol.isSolid_name (isIdentifier_label hp (List.mem_filterMap.2 ⟨item, hitem, hsymbol⟩))
  · subst hs
    rcases string_mem_cases hitem with rfl | hv
    · rfl
    · exact isSolid_of_isIdentifier (isIdentifier_of_mem_globals hp hv)

end Program

/-- Parsing gives programs of readable nodes. -/
theorem Source.isReadable_of_parse {source : String} {p : Program} (h : parse source = .ok p) :
    ∀ node ∈ p.walk, node.isReadable = true := by
  obtain ⟨lexemes, r, cursor, hscans, hfinishes, hfaults⟩ := exists_of_parse_ok h
  have hderives := (hscans.consumed .start).finish? hfinishes.finish
  have hwell := (hscans.splits hfinishes.splits).isWellFormed
  rw [List.append_nil] at hwell
  have hsound : ([] ++ lexemes.map Lexeme.token).all Token.isSound = true := by
    rw [List.nil_append, List.all_map, List.all_eq_true]
    exact fun l hl => Lexeme.isSound (hwell _ (List.mem_map_of_mem hl)) (hfaults l hl)
  exact List.forall_mem_cons.2 ⟨rfl, List.all_eq_true.1 (hderives.isReadable hsound)⟩

theorem decode_text_of_parse {source : String} {p : Program} (h : Source.parse source = .ok p)
    (target : Target) : decode (p.generate target).text = (p.generate target).lines :=
  decode_render (Program.isSolid_lines (Source.isReadable_of_parse h))

/-- Listings of parsed sources with the same text have the same lines. -/
theorem lines_eq_of_text_eq {source source' : String} {p q : Program} {target other : Target}
    (hp : Source.parse source = .ok p) (hq : Source.parse source' = .ok q)
    (htext : (q.generate other).text = (p.generate target).text) :
    (q.generate other).lines = (p.generate target).lines := by
  rw [← decode_text_of_parse hq other, htext, decode_text_of_parse hp target]

/-- The text generated for a source that is parsed is decoded to the very lines that were
generated. So the instructions can be counted in the text: the statistics have every mnemonic that
occurs in it, once, with the number of its lines. And no other lines of a parsed source, be it this
one or another, have the same text, nor has any other code. -/
theorem text_determines_lines (target : Target) {source : String} {p : Program}
    (h : Source.parse source = .ok p) :
    decode (p.generate target).text = (p.generate target).lines ∧
    compileSource target false source = .ok (p.generate target).text ∧
    sourceStats target source = .ok (tally (decode (p.generate target).text)) ∧
    ((tally (decode (p.generate target).text)).map Prod.fst).Nodup ∧
    (∀ mnemonic count, (mnemonic, count) ∈ tally (decode (p.generate target).text) ↔
      count = (decode (p.generate target).text).countP
        (fun l => l.kind = .instruction ∧ l.mnemonic = mnemonic) ∧ count ≠ 0) ∧
    ∀ (other : Target) (source' : String) (q : Program), Source.parse source' = .ok q →
      (q.generate other).text = (p.generate target).text →
      (q.generate other).lines = (p.generate target).lines ∧
      (q.generate other).items = (p.generate target).items := by
  have hdecode := decode_text_of_parse h target
  refine ⟨hdecode, Pipeline.returns_compile h target [], ?_, nodup_tally _,
    fun _ _ => mem_tally_iff, fun other source' q hq htext => ?_⟩
  · rw [hdecode]
    exact Pipeline.returns_stats h target []
  · have hlines := lines_eq_of_text_eq h hq htext
    exact ⟨hlines, Listing.items_eq_of_lines_eq hlines⟩

/-- Names that look like parts of the assembly, and a call with several operands. -/
def lookalikes : String := "fun printf(L0_END) if L0_END print main(text, L0_END)"

/-- The same with another formal. -/
def otherLookalikes : String := "fun printf(f) if f print main(text, f) # ,    .text:"

theorem lookalikes_decoded :
    ∃ p q, Source.parse lookalikes = .ok p ∧ Source.parse otherLookalikes = .ok q ∧
      (q.generate .macho).text = (p.generate .macho).text ∧
      decode (p.generate .macho).text = (p.generate .macho).lines ∧
      compileSource .macho false lookalikes = .ok (p.generate .macho).text ∧
      sourceStats .macho lookalikes = .ok (tally (decode (p.generate .macho).text)) ∧
      ((tally (decode (p.generate .macho).text)).map Prod.fst).Nodup ∧
      (("call", 3) ∈ tally (decode (p.generate .macho).text) ↔
        3 = (decode (p.generate .macho).text).countP
          (fun l => l.kind = .instruction ∧ l.mnemonic = "call") ∧ 3 ≠ 0) ∧
      (q.generate .macho).lines = (p.generate .macho).lines ∧
      (q.generate .macho).items = (p.generate .macho).items := by
  have hsame : (Source.parse otherLookalikes).toOption.map (Program.generate .macho) =
      (Source.parse lookalikes).toOption.map (Program.generate .macho) := by
    decide +kernel
  have hparsed : (Source.parse lookalikes).toOption.isSome = true := by decide +kernel
  cases hp : Source.parse lookalikes with
  | error e =>
      rw [hp] at hparsed
      cases hparsed
  | ok p =>
      cases hq : Source.parse otherLookalikes with
      | error e =>
          rw [hp, hq] at hsame
          cases hsame
      | ok q =>
          rw [hp, hq] at hsame
          have htext : (q.generate .macho).text = (p.generate .macho).text :=
            congrArg Listing.text (Option.some.inj hsame)
          obtain ⟨hdecode, hcompile, hstats, hnodup, hcount, hlines⟩ :=
            text_determines_lines .macho hp
          exact ⟨p, q, rfl, rfl, htext, hdecode, hcompile, hstats, hnodup, hcount "call" 3,
            hlines .macho otherLookalikes q hq htext⟩

end FunCompiler
