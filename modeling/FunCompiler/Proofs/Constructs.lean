import FunCompiler.Proofs.Layout
import FunCompiler.Proofs.Linkage

/-!
Conditionals and loops in the code of a program. Every construct draws one
number, and the numbers in the order of the walk are 0, 1, 2 and so on, since
what comes before a construct in the walk has been numbered and a condition
holds no construct. A `Site` is where the pass came to a construct: the tables
it found there, and the line where the code of the construct starts. The labels
of a number are defined once, all in the code of their construct, and a jump
leads to a label of the innermost construct that holds it.
-/

namespace FunCompiler

open Asm Code

/-- Conditionals and loops. -/
def Node.isConstruct : Node → Bool
  | .stmt (.ifThen ..) => true
  | .stmt (.ifElse ..) => true
  | .stmt (.loop ..) => true
  | _ => false

/-- The labels of a construct, in the order in which its code defines them. -/
def Stmt.parts : Stmt → List Part
  | .ifThen .. => [.yes, .no, .last]
  | .ifElse .. => [.yes, .no, .last]
  | .loop .. => [.first, .last]
  | _ => []

/-! ### Sites -/

/-- A construct, with the tables as they were and the line that was reached when the pass
came to it. -/
structure Site where
  formals : List String
  construct : Stmt
  tables : Tables
  start : Nat

namespace Site

/-- The number that the construct draws. -/
def id (site : Site) : Nat := site.tables.labels

def code (target : Target) (site : Site) : List Item :=
  (site.construct.emit target site.formals site.tables).1

/-- The line behind the code of the construct. -/
def stop (target : Target) (site : Site) : Nat := site.start + (site.code target).length

def Holds (target : Target) (site : Site) (k : Nat) : Prop :=
  site.start ≤ k ∧ k < site.stop target

def labels (site : Site) : List Symbol := site.construct.parts.map (.control site.id)

end Site

mutual

/-- The constructs of a statement whose code begins at that line, in the order of the walk. -/
def Stmt.sites (target : Target) (formals : List String) (t : Tables) (start : Nat) :
    Stmt → List Site
  | .ifThen cond yes =>
    let test := cond.emit formals t
    ⟨formals, .ifThen cond yes, t, start⟩ ::
      yes.sites target formals (freshLabel test.2).2 (start + (test.1.length + 3))
  | .ifElse cond yes no =>
    let test := cond.emit formals t
    let first := yes.emit target formals (freshLabel test.2).2
    ⟨formals, .ifElse cond yes no, t, start⟩ ::
      (yes.sites target formals (freshLabel test.2).2 (start + (test.1.length + 3)) ++
        no.sites target formals first.2 (start + (test.1.length + 3) + (first.1.length + 2)))
  | .loop cond body =>
    let test := cond.emit formals (freshLabel t).2
    ⟨formals, .loop cond body, t, start⟩ ::
      body.sites target formals test.2 (start + (test.1.length + 3))
  | .block body => Stmt.sitesAll target formals t start body
  | _ => []

def Stmt.sitesAll (target : Target) (formals : List String) (t : Tables) (start : Nat) :
    List Stmt → List Site
  | [] => []
  | s :: ss =>
    s.sites target formals t start ++
      Stmt.sitesAll target formals (s.emit target formals t).2
        (start + (s.emit target formals t).1.length) ss

end

/-- Four lines name a function and two enter its frame. -/
def Function.sites (target : Target) (t : Tables) (start : Nat) (f : Function) : List Site :=
  f.body.sites target f.formals t (start + 6)

def Function.sitesAll (target : Target) (t : Tables) (start : Nat) : List Function → List Site
  | [] => []
  | f :: fs =>
    f.sites target t start ++
      Function.sitesAll target (f.emit target t).2 (start + (f.emit target t).1.length) fs

/-- The constructs of a program. The first line of a listing opens the text section. -/
def Program.sites (target : Target) (p : Program) : List Site :=
  Function.sitesAll target {} 1 p.functions

/-! ### Numbers -/

mutual

@[simp] theorem Expr.filter_walk (e : Expr) : e.walk.filter Node.isConstruct = [] := by
  cases e with
  | var name => rfl
  | lit value => rfl
  | call callee actuals => simp [Expr.walk, Node.isConstruct, Expr.filter_walkAll actuals]
  | binary op left right =>
      simp only [Expr.walk, List.cons_append, List.filter_cons, List.filter_append,
        Expr.filter_walk left, Expr.filter_walk right]
      rfl

theorem Expr.filter_walkAll (es : List Expr) :
    (Expr.walkAll es).filter Node.isConstruct = [] := by
  cases es with
  | nil => rfl
  | cons e es =>
      rw [Expr.walkAll, List.filter_append, Expr.filter_walk e, Expr.filter_walkAll es,
        List.nil_append]

end

mutual

/-- The sites of a statement are the constructs that a walk meets in it. -/
theorem Stmt.sites_constructs (target : Target) (formals : List String) (t : Tables)
    (start : Nat) (s : Stmt) :
    (s.sites target formals t start).map (fun site => Node.stmt site.construct) =
      s.walk.filter Node.isConstruct := by
  cases s with
  | assign name value => simp [Stmt.sites, Stmt.walk, Node.isConstruct]
  | print value => simp [Stmt.sites, Stmt.walk, Node.isConstruct]
  | ret value => simp [Stmt.sites, Stmt.walk, Node.isConstruct]
  | block body =>
      simp [Stmt.sites, Stmt.walk, Node.isConstruct,
        Stmt.sitesAll_constructs target formals t start body]
  | ifThen cond yes =>
      simp [Stmt.sites, Stmt.walk, List.filter_cons, Node.isConstruct,
        Stmt.sites_constructs target formals _ _ yes]
  | ifElse cond yes no =>
      simp [Stmt.sites, Stmt.walk, List.filter_cons, Node.isConstruct,
        Stmt.sites_constructs target formals _ _ yes, Stmt.sites_constructs target formals _ _ no]
  | loop cond body =>
      simp [Stmt.sites, Stmt.walk, List.filter_cons, Node.isConstruct,
        Stmt.sites_constructs target formals _ _ body]

theorem Stmt.sitesAll_constructs (target : Target) (formals : List String) (t : Tables)
    (start : Nat) (ss : List Stmt) :
    (Stmt.sitesAll target formals t start ss).map (fun site => Node.stmt site.construct) =
      (Stmt.walkAll ss).filter Node.isConstruct := by
  cases ss with
  | nil => rfl
  | cons s ss =>
      rw [Stmt.sitesAll, Stmt.walkAll, List.map_append, List.filter_append,
        Stmt.sites_constructs target formals t start s,
        Stmt.sitesAll_constructs target formals _ _ ss]

end

theorem labels_freshLabel (t : Tables) : (freshLabel t).2.labels = t.labels + 1 := rfl

/-- The sites draw the numbers from `first` up to but not including `last`, in order. -/
structure Numbered (first last : Nat) (sites : List Site) : Prop where
  ids : sites.map Site.id = List.range' first sites.length
  last_eq : last = first + sites.length

namespace Numbered

theorem nil (n : Nat) : Numbered n n [] := ⟨rfl, rfl⟩

theorem append {first middle last : Nat} {sites more : List Site}
    (h : Numbered first middle sites) (h' : Numbered middle last more) :
    Numbered first last (sites ++ more) where
  ids := by
    rw [List.map_append, h.ids, h'.ids, h.last_eq, List.range'_append_1, List.length_append]
  last_eq := by
    rw [h'.last_eq, h.last_eq, List.length_append, Nat.add_assoc]

theorem cons {first last : Nat} {site : Site} {sites : List Site} (hid : site.id = first)
    (h : Numbered (first + 1) last sites) : Numbered first last (site :: sites) where
  ids := by rw [List.map_cons, hid, h.ids, List.length_cons, List.range'_succ]
  last_eq := by
    rw [h.last_eq, List.length_cons]
    omega

end Numbered

mutual

theorem Stmt.numbered (target : Target) (formals : List String) (t : Tables) (start : Nat)
    (s : Stmt) :
    Numbered t.labels (s.emit target formals t).2.labels (s.sites target formals t start) := by
  cases s with
  | assign name value =>
      rw [Stmt.emit_assign, labels_locate, Expr.labels_emit]
      exact .nil _
  | print value =>
      rw [Stmt.emit_print, Expr.labels_emit]
      exact .nil _
  | ret value =>
      rw [Stmt.emit_ret, Expr.labels_emit]
      exact .nil _
  | block body => exact Stmt.numbered_all target formals t start body
  | ifThen cond yes =>
      have hyes := Stmt.numbered target formals (freshLabel (cond.emit formals t).2).2
        (start + ((cond.emit formals t).1.length + 3)) yes
      -- the condition comes first but draws no number
      rw [labels_freshLabel, Expr.labels_emit] at hyes
      exact hyes.cons rfl
  | ifElse cond yes no =>
      have hyes := Stmt.numbered target formals (freshLabel (cond.emit formals t).2).2
        (start + ((cond.emit formals t).1.length + 3)) yes
      have hno := Stmt.numbered target formals
        (yes.emit target formals (freshLabel (cond.emit formals t).2).2).2
        (start + ((cond.emit formals t).1.length + 3) +
          ((yes.emit target formals (freshLabel (cond.emit formals t).2).2).1.length + 2)) no
      rw [labels_freshLabel, Expr.labels_emit] at hyes
      exact (hyes.append hno).cons rfl
  | loop cond body =>
      have hbody := Stmt.numbered target formals (cond.emit formals (freshLabel t).2).2
        (start + ((cond.emit formals (freshLabel t).2).1.length + 3)) body
      rw [Expr.labels_emit, labels_freshLabel] at hbody
      exact hbody.cons rfl

theorem Stmt.numbered_all (target : Target) (formals : List String) (t : Tables) (start : Nat)
    (ss : List Stmt) :
    Numbered t.labels (Stmt.emitAll target formals ss t).2.labels
      (Stmt.sitesAll target formals t start ss) := by
  cases ss with
  | nil => exact .nil _
  | cons s ss =>
      exact (Stmt.numbered target formals t start s).append
        (Stmt.numbered_all target formals _ _ ss)

end

namespace Function

theorem sitesAll_constructs (target : Target) (t : Tables) (start : Nat) (fs : List Function) :
    (sitesAll target t start fs).map (fun site => Node.stmt site.construct) =
      (fs.flatMap walk).filter Node.isConstruct := by
  induction fs generalizing t start with
  | nil => rfl
  | cons f fs ih =>
      rw [sitesAll, List.map_append, ih, List.flatMap_cons, List.filter_append, sites,
        Stmt.sites_constructs]
      rfl

theorem numbered_all (target : Target) (t : Tables) (start : Nat) (fs : List Function) :
    Numbered t.labels (emitAll target fs t).2.labels (sitesAll target t start fs) := by
  induction fs generalizing t start with
  | nil => exact .nil _
  | cons f fs ih => exact (Stmt.numbered target f.formals t _ f.body).append (ih _ _)

end Function

/-! ### Jumps -/

namespace Asm

/-- Where an item jumps to. -/
def Item.jump? : Item → Option Symbol
  | .instr (.jmp l) => some l
  | .instr (.je l) => some l
  | _ => none

def jumps (items : List Item) : List Symbol := items.filterMap Item.jump?

@[simp] theorem jumps_nil : jumps [] = [] := rfl

@[simp] theorem jumps_cons (item : Item) (items : List Item) :
    jumps (item :: items) = item.jump?.toList ++ jumps items := by
  cases h : item.jump? <;> simp [jumps, h]

@[simp] theorem jumps_append (items more : List Item) :
    jumps (items ++ more) = jumps items ++ jumps more := List.filterMap_append

end Asm

mutual

@[simp] theorem Expr.jumps_code (formals : List String) (t : Tables) (e : Expr) :
    jumps (e.emit formals t).1 = [] := by
  cases e with
  | var name => rfl
  | lit value => rfl
  | call callee actuals =>
      rw [Expr.emit_call]
      unfold reserving
      split <;> simp [Item.jump?, Expr.jumps_codeActuals formals t 0 actuals]
  | binary op left right =>
      have hop : jumps (operatorCode op) = [] := by cases op <;> rfl
      simp [Expr.emit_binary, Item.jump?, hop, Expr.jumps_code formals t left,
        Expr.jumps_code formals _ right]

theorem Expr.jumps_codeActuals (formals : List String) (t : Tables) (index : Nat)
    (es : List Expr) : jumps (Expr.emitActuals formals index es t).1 = [] := by
  cases es with
  | nil => rfl
  | cons e es =>
      simp [Expr.emitActuals_cons, storeActual, Item.jump?, Expr.jumps_code formals t e,
        Expr.jumps_codeActuals formals _ (index + 1) es]

end

/-- Of the sites that hold the line it is the innermost one: the code of any other begins
before it and ends behind it. -/
structure Innermost (target : Target) (sites : List Site) (k : Nat) (site : Site) : Prop where
  mem : site ∈ sites
  holds : site.Holds target k
  inner : ∀ other ∈ sites, other.Holds target k →
    other = site ∨ other.start < site.start ∧ site.stop target < other.stop target

/-- Code whose labels and jumps are all of one construct. -/
structure OwnCode (own : Symbol → Prop) (code : List Item) : Prop where
  labels : ∀ id part, .control id part ∈ labels code → own (.control id part)
  jumps : ∀ symbol ∈ jumps code, own symbol

/-- The sites of a piece of code that begins at that line. A label of a construct, and the
goal of a jump, is a label of the site that holds it, or else one that satisfies `own`: it
belongs to the construct around the piece. -/
structure Sited (target : Target) (own : Symbol → Prop) (code : List Item) (start : Nat)
    (sites : List Site) : Prop where
  within : ∀ site ∈ sites, start ≤ site.start ∧ site.stop target ≤ start + code.length
  lies : ∀ user, Lies user start code → ∀ site ∈ sites, Lies user site.start (site.code target)
  labels : ∀ id part, .control id part ∈ labels code →
    own (.control id part) ∨ ∃ site ∈ sites, .control id part ∈ site.labels
  jumps : ∀ k item symbol, code[k]? = some item → item.jump? = some symbol →
    (own symbol ∧ ∀ site ∈ sites, ¬site.Holds target (start + k)) ∨
      ∃ site, Innermost target sites (start + k) site ∧ symbol ∈ site.labels

namespace Sited

variable {target : Target} {own : Symbol → Prop} {code more : List Item} {start : Nat}
  {sites others : List Site}

theorem mono {own' : Symbol → Prop} (h : Sited target own code start sites)
    (hown : ∀ symbol, own symbol → own' symbol) : Sited target own' code start sites where
  within := h.within
  lies := h.lies
  labels id part hmem := (h.labels id part hmem).imp_left (hown _)
  jumps k item symbol hitem hjump :=
    (h.jumps k item symbol hitem hjump).imp_left fun ⟨hsymbol, hnone⟩ => ⟨hown _ hsymbol, hnone⟩

theorem leaf (h : OwnCode own code) : Sited target own code start [] where
  within := nofun
  lies := nofun
  labels id part hmem := .inl (h.labels id part hmem)
  jumps _ item symbol hitem hjump :=
    .inl ⟨h.jumps symbol (List.mem_filterMap.2 ⟨item, List.mem_of_getElem? hitem, hjump⟩), nofun⟩

theorem append {behind : Nat} (h : Sited target own code start sites)
    (h' : Sited target own more behind others) (hbehind : behind = start + code.length) :
    Sited target own (code ++ more) start (sites ++ others) where
  within site hsite := by
    rw [List.length_append]
    rcases List.mem_append.1 hsite with hsite | hsite
    · have hwithin := h.within site hsite
      omega
    · have hwithin := h'.within site hsite
      omega
  lies user hlies site hsite := by
    rcases List.mem_append.1 hsite with hsite | hsite
    · exact h.lies user hlies.left site hsite
    · exact h'.lies user (hbehind ▸ hlies.right) site hsite
  labels id part hmem := by
    rw [labels_append, List.mem_append] at hmem
    simp only [List.mem_append, or_and_right, exists_or]
    rcases hmem with hmem | hmem
    · exact (h.labels id part hmem).imp_right .inl
    · exact (h'.labels id part hmem).imp_right .inr
  jumps k item symbol hitem hjump := by
    -- no site of one piece holds a line of the other
    by_cases hk : k < code.length
    · rw [List.getElem?_append_left hk] at hitem
      have hnone : ∀ other ∈ others, ¬other.Holds target (start + k) := by
        intro other hother hholds
        have hwithin := h'.within other hother
        have hle := hholds.1
        omega
      rcases h.jumps k item symbol hitem hjump with ⟨hsymbol, hothers⟩ | ⟨site, hsite, hsymbol⟩
      · exact .inl ⟨hsymbol, List.forall_mem_append.2 ⟨hothers, hnone⟩⟩
      · refine .inr ⟨site, ⟨List.mem_append_left _ hsite.mem, hsite.holds, ?_⟩, hsymbol⟩
        exact List.forall_mem_append.2 ⟨hsite.inner, fun other hother hholds =>
          absurd hholds (hnone other hother)⟩
    · have hstart : behind + (k - code.length) = start + k := by omega
      rw [List.getElem?_append_right (Nat.not_lt.1 hk)] at hitem
      have hnone : ∀ site ∈ sites, ¬site.Holds target (start + k) := by
        intro site hsite hholds
        have hwithin := h.within site hsite
        have hlt := hholds.2
        omega
      have hjumps := h'.jumps (k - code.length) item symbol hitem hjump
      rw [hstart] at hjumps
      rcases hjumps with ⟨hsymbol, hothers⟩ | ⟨site, hsite, hsymbol⟩
      · exact .inl ⟨hsymbol, List.forall_mem_append.2 ⟨hnone, hothers⟩⟩
      · refine .inr ⟨site, ⟨List.mem_append_right _ hsite.mem, hsite.holds, ?_⟩, hsymbol⟩
        exact List.forall_mem_append.2 ⟨fun other hother hholds =>
          absurd hholds (hnone other hother), hsite.inner⟩

/-- The code of a construct. What is inside it lies between its own lines, so a jump that no
site inside it holds is its own. -/
theorem construct {site : Site} {head middle rest : List Item} {n : Nat}
    (hmiddle : Sited target (· ∈ site.labels) middle (site.start + n) sites)
    (hhead : OwnCode (· ∈ site.labels) head) (hrest : OwnCode (· ∈ site.labels) rest)
    (hcode : site.code target = head ++ middle ++ rest) (hn : head.length = n)
    (hbefore : head ≠ []) (hbehind : rest ≠ []) :
    Sited target (fun _ => False) (site.code target) site.start (site :: sites) := by
  subst hn
  have hwhole := ((leaf hhead).append hmiddle rfl).append (leaf hrest) rfl
  rw [← hcode, List.nil_append, List.append_nil] at hwhole
  have hlength : (site.code target).length = head.length + middle.length + rest.length := by
    rw [hcode, List.length_append, List.length_append]
  have hpos := List.length_pos_iff.2 hbefore
  have hpos' := List.length_pos_iff.2 hbehind
  refine ⟨?_, ?_, ?_, ?_⟩
  · exact List.forall_mem_cons.2 ⟨⟨Nat.le_refl _, Nat.le_refl _⟩, hwhole.within⟩
  · exact fun user hlies => List.forall_mem_cons.2 ⟨hlies, hwhole.lies user hlies⟩
  · intro id part hmem
    rcases hwhole.labels id part hmem with hown | ⟨other, hother, hlabel⟩
    · exact .inr ⟨site, List.mem_cons_self .., hown⟩
    · exact .inr ⟨other, List.mem_cons_of_mem _ hother, hlabel⟩
  · intro k item symbol hitem hjump
    have hk : k < (site.code target).length := (List.getElem?_eq_some_iff.1 hitem).1
    refine .inr ?_
    rcases hwhole.jumps k item symbol hitem hjump with ⟨hown, hnone⟩ | ⟨other, hother, hsymbol⟩
    · refine ⟨site, ⟨List.mem_cons_self .., ⟨Nat.le_add_right .., ?_⟩, ?_⟩, hown⟩
      · exact Nat.add_lt_add_left hk _
      · exact List.forall_mem_cons.2 ⟨fun _ => .inl rfl, fun other hother hholds =>
          absurd hholds (hnone other hother)⟩
    · refine ⟨other, ⟨List.mem_cons_of_mem _ hother.mem, hother.holds, ?_⟩, hsymbol⟩
      refine List.forall_mem_cons.2 ⟨fun _ => .inr ?_, hother.inner⟩
      have hwithin := hmiddle.within other hother.mem
      have hstop : site.stop target = site.start + (site.code target).length := rfl
      omega

end Sited

mutual

theorem Stmt.sited (target : Target) (formals : List String) (t : Tables) (start : Nat)
    (s : Stmt) :
    Sited target (fun _ => False) (s.emit target formals t).1 start
      (s.sites target formals t start) := by
  cases s with
  | assign name value =>
      exact .leaf ⟨by simp [Stmt.emit_assign], by simp [Stmt.emit_assign, Item.jump?]⟩
  | print value =>
      exact .leaf ⟨by simp [Stmt.emit_print, printCode],
        by simp [Stmt.emit_print, printCode, Item.jump?]⟩
  | ret value =>
      exact .leaf ⟨by simp [Stmt.emit_ret, leaveFrame],
        by simp [Stmt.emit_ret, leaveFrame, Item.jump?]⟩
  | block body => exact Stmt.sited_all target formals t start body
  | ifThen cond yes =>
      let site : Site := ⟨formals, .ifThen cond yes, t, start⟩
      have hid : (cond.emit formals t).2.labels = site.id := Expr.labels_emit formals t cond
      have hhead : OwnCode (· ∈ site.labels) ((cond.emit formals t).1 ++
          jumpIfZero (.control site.id .no) ++ [.label (.control site.id .yes)]) := by
        constructor <;> simp [jumpIfZero, Item.jump?, Site.labels, site, Stmt.parts]
      have hrest : OwnCode (· ∈ site.labels) [.instr (.jmp (.control site.id .last)),
          .label (.control site.id .no), .label (.control site.id .last)] := by
        constructor <;> simp [Item.jump?, Site.labels, site, Stmt.parts, or_imp, forall_and]
      have hyes := Stmt.sited target formals (freshLabel (cond.emit formals t).2).2
        (site.start + ((cond.emit formals t).1.length + 3)) yes
      refine (hyes.mono nofun).construct hhead hrest ?_ (by simp [jumpIfZero]) (by simp) (by simp)
      simp [Site.code, site, Stmt.emit_ifThen, hid]
  | ifElse cond yes no =>
      let site : Site := ⟨formals, .ifElse cond yes no, t, start⟩
      have hid : (cond.emit formals t).2.labels = site.id := Expr.labels_emit formals t cond
      have hhead : OwnCode (· ∈ site.labels) ((cond.emit formals t).1 ++
          jumpIfZero (.control site.id .no) ++ [.label (.control site.id .yes)]) := by
        constructor <;> simp [jumpIfZero, Item.jump?, Site.labels, site, Stmt.parts]
      have hbetween : OwnCode (· ∈ site.labels) [.instr (.jmp (.control site.id .last)),
          .label (.control site.id .no)] := by
        constructor <;> simp [Item.jump?, Site.labels, site, Stmt.parts]
      have hrest : OwnCode (· ∈ site.labels) [.label (.control site.id .last)] := by
        constructor <;> simp [Item.jump?, Site.labels, site, Stmt.parts]
      have hyes := Stmt.sited target formals (freshLabel (cond.emit formals t).2).2
        (site.start + ((cond.emit formals t).1.length + 3)) yes
      have hno := Stmt.sited target formals
        (yes.emit target formals (freshLabel (cond.emit formals t).2).2).2
        (site.start + ((cond.emit formals t).1.length + 3) +
          ((yes.emit target formals (freshLabel (cond.emit formals t).2).2).1.length + 2)) no
      have hfirst := (hyes.mono nofun).append (.leaf hbetween) rfl
      rw [List.append_nil] at hfirst
      refine (hfirst.append (hno.mono nofun) (by simp)).construct hhead hrest ?_
        (by simp [jumpIfZero]) (by simp) (by simp)
      simp [Site.code, site, Stmt.emit_ifElse, hid]
  | loop cond body =>
      let site : Site := ⟨formals, .loop cond body, t, start⟩
      have hhead : OwnCode (· ∈ site.labels) (.label (.control site.id .first) ::
          (cond.emit formals (freshLabel t).2).1 ++ jumpIfZero (.control site.id .last)) := by
        constructor <;> simp [jumpIfZero, Item.jump?, Site.labels, site, Stmt.parts]
      have hrest : OwnCode (· ∈ site.labels) [.instr (.jmp (.control site.id .first)),
          .label (.control site.id .last)] := by
        constructor <;> simp [Item.jump?, Site.labels, site, Stmt.parts]
      have hbody := Stmt.sited target formals (cond.emit formals (freshLabel t).2).2
        (site.start + ((cond.emit formals (freshLabel t).2).1.length + 3)) body
      exact (hbody.mono nofun).construct hhead hrest rfl (by simp [jumpIfZero]) nofun nofun

theorem Stmt.sited_all (target : Target) (formals : List String) (t : Tables) (start : Nat)
    (ss : List Stmt) :
    Sited target (fun _ => False) (Stmt.emitAll target formals ss t).1 start
      (Stmt.sitesAll target formals t start ss) := by
  cases ss with
  | nil => exact .leaf ⟨nofun, nofun⟩
  | cons s ss =>
      exact (Stmt.sited target formals t start s).append (Stmt.sited_all target formals _ _ ss) rfl

end

namespace Function

theorem sited (target : Target) (t : Tables) (start : Nat) (f : Function) :
    Sited target (fun _ => False) (f.emit target t).1 start (f.sites target t start) := by
  have hheader : OwnCode (fun _ => False) ([.directive (.global (.function f.name)),
      .directive (.global (.functionAlias f.name)), .label (.function f.name),
      .label (.functionAlias f.name)] ++ enterFrame) := by
    constructor <;> simp [enterFrame, Item.jump?]
  have hfooter : OwnCode (fun _ => False)
      (leaveFrame ++ [.instr (.mov (.immediate 0) Register.rax), .instr .ret]) := by
    constructor <;> simp [leaveFrame, Item.jump?]
  have hbody := Stmt.sited target f.formals t (start + 6) f.body
  have hwhole := ((Sited.leaf hheader).append hbody rfl).append (.leaf hfooter) rfl
  rwa [List.nil_append, List.append_nil, ← List.append_assoc] at hwhole

theorem sited_all (target : Target) (t : Tables) (start : Nat) (fs : List Function) :
    Sited target (fun _ => False) (emitAll target fs t).1 start (sitesAll target t start fs) := by
  induction fs generalizing t start with
  | nil => exact .leaf ⟨nofun, nofun⟩
  | cons f fs ih => exact (f.sited target t start).append (ih _ _) rfl

/-- The line where a function starts that comes behind those. The first line of a listing opens
the text section. -/
def start (target : Target) (before : List Function) : Nat :=
  1 + (emitAll target before {}).1.length

def code (target : Target) (before : List Function) (f : Function) : List Item :=
  (f.emit target (emitAll target before {}).2).1

def Holds (target : Target) (before : List Function) (f : Function) (k : Nat) : Prop :=
  start target before ≤ k ∧ k < start target before + (f.code target before).length

theorem emitAll_append (target : Target) (t : Tables) (fs gs : List Function) :
    emitAll target (fs ++ gs) t = ((emitAll target fs t).1 ++
      (emitAll target gs (emitAll target fs t).2).1,
      (emitAll target gs (emitAll target fs t).2).2) := by
  induction fs generalizing t with
  | nil => rfl
  | cons f fs ih => simp [emitAll_cons, ih]

/-- Every site is one of a function. -/
theorem exists_of_mem_sitesAll (target : Target) (t : Tables) (start : Nat) {fs : List Function}
    {site : Site} (h : site ∈ sitesAll target t start fs) :
    ∃ (before : List Function) (f : Function) (behind : List Function),
      fs = before ++ f :: behind ∧ site ∈ f.sites target (emitAll target before t).2
        (start + (emitAll target before t).1.length) := by
  induction fs generalizing t start with
  | nil => cases h
  | cons f fs ih =>
      rw [sitesAll, List.mem_append] at h
      rcases h with h | h
      · exact ⟨[], f, fs, rfl, h⟩
      · obtain ⟨before, g, behind, rfl, hsite⟩ := ih _ _ h
        refine ⟨f :: before, g, behind, rfl, ?_⟩
        rwa [emitAll_cons, List.length_append, ← Nat.add_assoc]

end Function

theorem jumps_data (g : Globals) : jumps g.data = [] := by
  simp [Globals.data, Globals.cell, Globals.label, jumps, List.filterMap_flatMap, Item.jump?]

namespace Program

theorem sited (target : Target) (p : Program) :
    Sited target (fun _ => False) (p.generate target).items 0 (p.sites target) := by
  have hopen : OwnCode (fun _ => False) [.directive .text] := by
    constructor <;> simp [Item.jump?]
  have hbehind : OwnCode (fun _ => False) (entryCode ++
      ([.directive .data, .label .format, .directive (.string printFormat)] ++
        (p.globals target).data)) := by
    constructor <;>
      simp [labels_data, jumps_data, entryCode, enterFrame, leaveFrame, Item.jump?]
  have hwhole := ((Sited.leaf hopen).append (Function.sited_all target {} 1 p.functions) rfl).append
    (.leaf hbehind) rfl
  rw [List.nil_append, List.append_nil] at hwhole
  rw [generate_items]
  exact hwhole

variable {target : Target} {p : Program}

theorem isConstruct_of_mem_sites {site : Site} (h : site ∈ p.sites target) :
    (Node.stmt site.construct).isConstruct := by
  have hmem : Node.stmt site.construct ∈ (p.functions.flatMap Function.walk).filter
      Node.isConstruct := by
    rw [← Function.sitesAll_constructs target {} 1]
    exact List.mem_map_of_mem h
  exact (List.mem_filter.1 hmem).2

theorem numbered_sites (target : Target) (p : Program) :
    Numbered 0 (p.generate target).tables.labels (p.sites target) :=
  Function.numbered_all target {} 1 p.functions

theorem ids_sites (target : Target) (p : Program) :
    (p.sites target).map Site.id = List.range (p.generate target).tables.labels := by
  have hnumbered := p.numbered_sites target
  rw [hnumbered.ids, hnumbered.last_eq, Nat.zero_add, List.range_eq_range']

theorem id_lt_of_mem_sites {site : Site} (h : site ∈ p.sites target) :
    site.id < (p.generate target).tables.labels := by
  rw [← List.mem_range, ← ids_sites]
  exact List.mem_map_of_mem h

/-- No two sites have one number. -/
theorem site_eq_of_id {site other : Site} (h : site ∈ p.sites target)
    (h' : other ∈ p.sites target) (hid : other.id = site.id) : other = site := by
  refine List.inj_on_of_nodup_map ?_ h' h hid
  rw [ids_sites]
  exact List.nodup_range

theorem count_control_le (target : Target) (p : Program) (id : Nat) (part : Part) :
    (labels (p.generate target).items).count (.control id part) ≤ 1 := by
  by_contra htwice
  obtain ⟨g, -, heq | heq⟩ := duplicated_iff.1 (Nat.lt_of_not_le htwice) <;> cases heq

end Program

/-! ### Labels -/

/-- A label of the construct of that number. -/
def Asm.Symbol.isOf (id : Nat) : Symbol → Bool
  | .control id' _ => id' = id
  | _ => false

theorem Asm.Symbol.isOf_control (id : Nat) (part : Part) :
    (Symbol.control id part).isOf id = true := decide_eq_true rfl

/-- Names that begin with `L`, the number and an underscore. -/
def Asm.isControlName (id : Nat) (name : String) : Bool :=
  (controlName id "").toList.isPrefixOf name.toList

theorem Asm.isControlName_name (id : Nat) (symbol : Symbol) :
    isControlName id symbol.name = symbol.isOf id := by
  rw [Bool.eq_iff_iff, isControlName, List.isPrefixOf_iff_prefix, toList_controlName]
  cases symbol with
  | control id' part =>
      rw [Symbol.name, toList_controlName]
      simp only [Symbol.isOf, decide_eq_true_eq, List.cons_prefix_cons, true_and]
      constructor
      · rintro ⟨rest, hrest⟩
        rw [List.append_assoc] at hrest
        have hdigits := (append_underscore_inj Nat.underscore_not_in_toDigits
          Nat.underscore_not_in_toDigits hrest).1
        simpa using (congrArg (Nat.ofDigitChars 10 · 0) hdigits).symm
      · rintro rfl
        simp
  | printf target => cases target <;> simp [Symbol.name, Symbol.isOf, Target.printfName]
  | _ => simp [Symbol.name, Symbol.isOf]

theorem OwnLabels.filter_isOf {first last id : Nat} {symbols : List Symbol}
    (h : OwnLabels first last symbols) (hid : id < first) :
    symbols.filter (·.isOf id) = [] := by
  rw [List.filter_eq_nil_iff]
  intro symbol hsymbol
  obtain ⟨id', part, rfl, hle, -⟩ := h.range symbol hsymbol
  simp only [Symbol.isOf, decide_eq_true_eq]
  omega

namespace Site

/-- The code of a construct defines the labels of its number in their order. -/
theorem filter_labels_code (target : Target) {site : Site}
    (h : (Node.stmt site.construct).isConstruct) :
    (Asm.labels (site.code target)).filter (·.isOf site.id) = site.labels := by
  obtain ⟨formals, construct, t, start⟩ := site
  -- the constructs inside have greater numbers
  have hinner (s : Stmt) (t' : Tables) (hlt : t.labels < t'.labels) :
      (Asm.labels (s.emit target formals t').1).filter (·.isOf t.labels) = [] :=
    (Stmt.ownLabels target formals t' s).filter_isOf hlt
  cases construct with
  | assign name value => cases h
  | print value => cases h
  | block body => cases h
  | ret value => cases h
  | ifThen cond yes =>
      have hid := Expr.labels_emit formals t cond
      have hfresh := labels_freshLabel (cond.emit formals t).2
      have hyes := hinner yes (freshLabel (cond.emit formals t).2).2 (by omega)
      simp [code, Site.id, Site.labels, Stmt.parts, Stmt.emit_ifThen, jumpIfZero,
        Symbol.isOf_control, hid, hyes]
  | ifElse cond yes no =>
      have hid := Expr.labels_emit formals t cond
      have hfresh := labels_freshLabel (cond.emit formals t).2
      have hgrow :=
        (Stmt.grows_emit target formals (freshLabel (cond.emit formals t).2).2 yes).labels
      have hyes := hinner yes (freshLabel (cond.emit formals t).2).2 (by omega)
      have hno := hinner no
        (yes.emit target formals (freshLabel (cond.emit formals t).2).2).2 (by omega)
      simp [code, Site.id, Site.labels, Stmt.parts, Stmt.emit_ifElse, jumpIfZero,
        Symbol.isOf_control, hid, hyes, hno]
  | loop cond body =>
      have hid := Expr.labels_emit formals (freshLabel t).2 cond
      have hfresh := labels_freshLabel t
      have hbody := hinner body (cond.emit formals (freshLabel t).2).2 (by omega)
      simp [code, Site.id, Site.labels, Stmt.parts, Stmt.emit_loop, jumpIfZero,
        Symbol.isOf_control, hbody]

end Site

namespace Program

variable {target : Target} {p : Program}

theorem lies_site {site : Site} (h : site ∈ p.sites target) :
    Lies (p.generate target).items site.start (site.code target) :=
  (p.sited target).lies _ (List.prefix_refl _) site h

/-- The code of a site, and what stands before and behind it. -/
theorem exists_around {site : Site} (h : site ∈ p.sites target) :
    ∃ before behind, (p.generate target).items = before ++ (site.code target ++ behind) ∧
      before.length = site.start := by
  obtain ⟨behind, hbehind⟩ := lies_site h
  have hwithin := (p.sited target).within site h
  refine ⟨(p.generate target).items.take site.start, behind, ?_, ?_⟩
  · rw [hbehind, List.take_append_drop]
  · rw [List.length_take]
    unfold Site.stop at hwithin
    omega

/-- A label of a construct is defined in the code of that construct and nowhere else. -/
theorem not_mem_around {site : Site} (h : site ∈ p.sites target) (part : Part)
    {before behind : List Item}
    (hitems : (p.generate target).items = before ++ (site.code target ++ behind)) :
    .control site.id part ∉ labels before ∧ .control site.id part ∉ labels behind := by
  -- a label of the construct that is defined anywhere is defined in its code, and only once
  have honce := count_control_le target p site.id part
  have hinside : .control site.id part ∈ labels (p.generate target).items →
      0 < (labels (site.code target)).count (.control site.id part) := by
    intro hmem
    obtain hfalse | ⟨other, hother, hlabel⟩ := (p.sited target).labels _ _ hmem
    · exact hfalse.elim
    · obtain ⟨part', -, heq⟩ := List.mem_map.1 hlabel
      obtain ⟨hid, rfl⟩ := Symbol.control.inj heq
      obtain rfl := site_eq_of_id h hother hid
      rw [← Site.filter_labels_code target (isConstruct_of_mem_sites h)] at hlabel
      exact List.count_pos_iff.2 (List.mem_filter.1 hlabel).1
  rw [hitems, labels_append, labels_append, List.mem_append, List.mem_append] at hinside
  rw [hitems, labels_append, labels_append, List.count_append, List.count_append] at honce
  constructor
  · intro hmem
    have hcount := List.count_pos_iff.2 hmem
    have hcode := hinside (.inl hmem)
    omega
  · intro hmem
    have hcount := List.count_pos_iff.2 hmem
    have hcode := hinside (.inr (.inr hmem))
    omega

theorem filter_isOf_eq_nil {symbols : List Symbol} {id : Nat}
    (h : ∀ part, .control id part ∉ symbols) : symbols.filter (·.isOf id) = [] := by
  rw [List.filter_eq_nil_iff]
  intro symbol hsymbol hisOf
  cases symbol with
  | control id' part =>
      rw [Symbol.isOf, decide_eq_true_eq] at hisOf
      exact h part (hisOf ▸ hsymbol)
  | _ => cases hisOf

theorem filter_labels {site : Site} (h : site ∈ p.sites target) :
    (labels (p.generate target).items).filter (·.isOf site.id) = site.labels := by
  obtain ⟨before, behind, hitems, -⟩ := exists_around h
  have hbefore := filter_isOf_eq_nil fun part => (not_mem_around h part hitems).1
  have hbehind := filter_isOf_eq_nil fun part => (not_mem_around h part hitems).2
  rw [hitems, labels_append, labels_append, List.filter_append, List.filter_append, hbefore,
    hbehind, Site.filter_labels_code target (isConstruct_of_mem_sites h), List.nil_append,
    List.append_nil]

/-- The line of a label of a construct is held by the site of the construct. -/
theorem holds_label {site : Site} (h : site ∈ p.sites target) {part : Part} {m : Nat}
    (hm : (p.generate target).items[m]? = some (.label (.control site.id part))) :
    site.Holds target m := by
  obtain ⟨before, behind, hitems, hlength⟩ := exists_around h
  obtain ⟨hbefore, hbehind⟩ := not_mem_around h part hitems
  rw [hitems] at hm
  refine ⟨?_, ?_⟩
  · by_contra hlt
    rw [List.getElem?_append_left (by omega)] at hm
    exact hbefore (mem_labels.2 (List.mem_of_getElem? hm))
  · by_contra hle
    unfold Site.stop at hle
    rw [List.getElem?_append_right (by omega), List.getElem?_append_right (by omega)] at hm
    exact hbehind (mem_labels.2 (List.mem_of_getElem? hm))

/-- The code of every function lies where the function starts. -/
theorem lies_code {before behind : List Function} {f : Function}
    (h : p.functions = before ++ f :: behind) :
    Lies (p.generate target).items (Function.start target before) (f.code target before) := by
  have hcode : Lies (p.generate target).items 1 (Function.emitAll target p.functions {}).1 := by
    rw [generate_items]
    exact List.prefix_append ..
  rw [h, Function.emitAll_append, Function.emitAll_cons] at hcode
  exact hcode.right.left

/-- The lines of a site are lines of one function. -/
theorem exists_function {site : Site} (h : site ∈ p.sites target) :
    ∃ (before : List Function) (f : Function) (behind : List Function),
      p.functions = before ++ f :: behind ∧
        ∀ k, site.Holds target k → f.Holds target before k := by
  obtain ⟨before, f, behind, hfunctions, hsite⟩ := Function.exists_of_mem_sitesAll target {} 1 h
  refine ⟨before, f, behind, hfunctions, fun k hk => ?_⟩
  have hwithin := (f.sited target _ _).within site hsite
  exact ⟨Nat.le_trans hwithin.1 hk.1, Nat.lt_of_lt_of_le hk.2 hwithin.2⟩

end Program

/-! ### Lines -/

theorem Lies.extract_lines {items code : List Item} {pc : Nat} (h : Lies items pc code) :
    (items.map Item.line).extract pc (pc + code.length) = code.map Item.line := by
  obtain ⟨behind, hbehind⟩ := h
  rw [List.extract_eq_take_drop, Nat.add_sub_cancel_left, ← List.map_drop, ← hbehind,
    List.map_append, ← List.length_map Item.line, List.take_left]

/-- The line jumps. -/
def Asm.Line.IsJump (l : Line) : Prop :=
  l.kind = .instruction ∧ (l.mnemonic = "je" ∨ l.mnemonic = "jmp")

/-- The line defines that label. -/
def Asm.Line.Defines (l : Line) (label : String) : Prop := l.kind = .label ∧ l.mnemonic = label

theorem Asm.Item.jump?_of_isJump {item : Item} (h : item.line.IsJump) :
    ∃ symbol, item.jump? = some symbol ∧ item.line.operands = [symbol.name] := by
  obtain ⟨hkind, hmnemonic⟩ := h
  cases item with
  | directive d => cases hkind
  | label symbol => cases hkind
  | instr i =>
      cases i with
      | jmp l => exact ⟨l, rfl, rfl⟩
      | je l => exact ⟨l, rfl, rfl⟩
      | set c => cases c <;> simp [Item.line, Instr.mnemonic, Condition.suffix] at hmnemonic
      | _ => simp [Item.line, Instr.mnemonic] at hmnemonic

theorem Asm.Item.eq_label_of_defines {item : Item} {symbol : Symbol}
    (h : item.line.Defines symbol.name) : item = .label symbol := by
  obtain ⟨hkind, hname⟩ := h
  cases item with
  | directive d => cases hkind
  | label symbol' => rw [Symbol.name_injective hname]
  | instr i => cases hkind

/-- The lines of the construct are those of its code. They define its labels, in their order,
and no other line of the listing defines a label of its number. -/
structure Site.Owns (target : Target) (lines : List Line) (site : Site) : Prop where
  code : lines.extract site.start (site.stop target) = (site.code target).map Item.line
  inside : (definedLabels (lines.extract site.start (site.stop target))).filter
    (isControlName site.id) = site.construct.parts.map fun part => controlName site.id part.name
  anywhere : (definedLabels lines).filter (isControlName site.id) =
    site.construct.parts.map fun part => controlName site.id part.name

theorem filter_definedLabels (items : List Item) (id : Nat) :
    (definedLabels (items.map Item.line)).filter (isControlName id) =
      ((labels items).filter (·.isOf id)).map Symbol.name := by
  have hlabels := Listing.definedLabels_lines ⟨items, {}⟩
  have hof : isControlName id ∘ Symbol.name = (·.isOf id) := funext (isControlName_name id)
  unfold Listing.lines at hlabels
  rw [hlabels, List.filter_map, hof]

theorem Listing.exists_item {listing : Listing} {k : Nat} {l : Line}
    (h : listing.lines[k]? = some l) : ∃ item, listing.items[k]? = some item ∧ item.line = l := by
  rw [Listing.lines, List.getElem?_map] at h
  exact Option.map_eq_some_iff.1 h

theorem Site.map_name_labels (site : Site) :
    site.labels.map Symbol.name =
      site.construct.parts.map fun part => controlName site.id part.name := List.map_map ..

namespace Program

variable {target : Target} {p : Program}

theorem owns_of_mem_sites {site : Site} (h : site ∈ p.sites target) :
    site.Owns target (p.generate target).lines := by
  have hcode := (lies_site h).extract_lines
  refine ⟨hcode, ?_, ?_⟩
  · unfold Listing.lines Site.stop
    rw [hcode, filter_definedLabels,
      Site.filter_labels_code target (isConstruct_of_mem_sites h), Site.map_name_labels]
  · unfold Listing.lines
    rw [filter_definedLabels, filter_labels h, Site.map_name_labels]

/-- A number that was not issued has no labels. -/
theorem filter_eq_nil_of_le {id : Nat} (h : (p.generate target).tables.labels ≤ id) :
    (definedLabels (p.generate target).lines).filter (isControlName id) = [] := by
  have hnone : ∀ part, .control id part ∉ labels (p.generate target).items := by
    intro part hmem
    obtain hfalse | ⟨site, hsite, hlabel⟩ := (p.sited target).labels _ _ hmem
    · exact hfalse
    · obtain ⟨part', -, heq⟩ := List.mem_map.1 hlabel
      obtain ⟨rfl, -⟩ := Symbol.control.inj heq
      exact Nat.not_lt.2 h (id_lt_of_mem_sites hsite)
  unfold Listing.lines
  rw [filter_definedLabels, filter_isOf_eq_nil hnone, List.map_nil]

/-- A jump leads to a label of the innermost construct around it. -/
theorem innermost_of_isJump {k : Nat} {l : Line} (hline : (p.generate target).lines[k]? = some l)
    (hjump : l.IsJump) :
    ∃ site, Innermost target (p.sites target) k site ∧
      ∃ part ∈ site.construct.parts, l.operands = [controlName site.id part.name] := by
  obtain ⟨item, hitem, rfl⟩ := Listing.exists_item hline
  obtain ⟨symbol, hsymbol, hoperands⟩ := Item.jump?_of_isJump hjump
  obtain ⟨hfalse, -⟩ | ⟨site, hsite, hlabel⟩ := (p.sited target).jumps k item symbol hitem hsymbol
  · exact hfalse.elim
  · obtain ⟨part, hpart, rfl⟩ := List.mem_map.1 hlabel
    rw [Nat.zero_add] at hsite
    exact ⟨site, hsite, part, hpart, hoperands⟩

theorem holds_of_defines {site : Site} (h : site ∈ p.sites target) {part : Part} {m : Nat}
    {l : Line} (hline : (p.generate target).lines[m]? = some l)
    (hdefines : l.Defines (controlName site.id part.name)) : site.Holds target m := by
  obtain ⟨item, hitem, rfl⟩ := Listing.exists_item hline
  obtain rfl := Item.eq_label_of_defines (show item.line.Defines (Symbol.control _ part).name from
    hdefines)
  exact holds_label h hitem

end Program

/-- Every conditional and every loop of a program has a number of its own: the numbers are those
below the count of labels issued, in the order of the walk. The labels of a number are those of
its construct, each defined once, within the lines of the construct, and no other number has any.
A jump leads to a label of the innermost construct around it, so both lie in the lines of one
function. -/
theorem control_labels_owned (target : Target) (p : Program) :
    (p.generate target).tables.labels = p.walk.countP Node.isConstruct ∧
    (p.sites target).map (fun site => Node.stmt site.construct) =
      p.walk.filter Node.isConstruct ∧
    (p.sites target).map Site.id = List.range (p.generate target).tables.labels ∧
    (∀ site ∈ p.sites target, site.Owns target (p.generate target).lines) ∧
    (∀ id, (p.generate target).tables.labels ≤ id →
      (definedLabels (p.generate target).lines).filter (isControlName id) = []) ∧
    (∀ (before : List Function) (f : Function) (behind : List Function),
      p.functions = before ++ f :: behind →
      (p.generate target).lines.extract (Function.start target before)
        (Function.start target before + (f.code target before).length) =
          (f.code target before).map Item.line) ∧
    ∀ k l, (p.generate target).lines[k]? = some l → l.IsJump →
      (∃ site, Innermost target (p.sites target) k site ∧
        ∃ part ∈ site.construct.parts, l.operands = [controlName site.id part.name]) ∧
      ∃ (before : List Function) (f : Function) (behind : List Function),
        p.functions = before ++ f :: behind ∧ f.Holds target before k ∧
        ∀ m l' goal, (p.generate target).lines[m]? = some l' → l.operands = [goal] →
          l'.Defines goal → f.Holds target before m := by
  have hsites : (p.sites target).map (fun site => Node.stmt site.construct) =
      p.walk.filter Node.isConstruct := Function.sitesAll_constructs target {} 1 p.functions
  refine ⟨?_, hsites, p.ids_sites target, fun site => Program.owns_of_mem_sites,
    fun id => Program.filter_eq_nil_of_le, ?_, ?_⟩
  · rw [(p.numbered_sites target).last_eq, Nat.zero_add, List.countP_eq_length_filter, ← hsites,
      List.length_map]
  · exact fun before f behind h => (Program.lies_code h).extract_lines
  · intro k l hline hjump
    obtain ⟨site, hsite, part, hpart, hoperands⟩ := Program.innermost_of_isJump hline hjump
    obtain ⟨before, f, behind, hfunctions, hholds⟩ := Program.exists_function hsite.mem
    refine ⟨⟨site, hsite, part, hpart, hoperands⟩, before, f, behind, hfunctions,
      hholds k hsite.holds, ?_⟩
    intro m l' goal hline' hgoal hdefines
    obtain rfl : goal = controlName site.id part.name := by simpa [hgoal] using hoperands
    exact hholds m (Program.holds_of_defines hsite.mem hline' hdefines)

end FunCompiler
