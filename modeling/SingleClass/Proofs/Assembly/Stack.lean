import SingleClass.Proofs.Compilation
import SingleClass.Proofs.Assembly.Depth
import SingleClass.Proofs.Assembly.Preservation
import SingleClass.Proofs.Lowering.Regularity
import SingleClass.Proofs.Typing.Agreement
set_option autoImplicit false

/-!
Emitted assembly respects the operand stack: the lines of each instruction begin and end with nothing
on it (`Frame.Selects.fits`), and control does not fall out of a method.
-/

namespace SingleClass

theorem Label.depth_of_structure {x : Label} (h : x.kind ∈ structureKinds) : x.depth = 0 := by
  refine if_neg fun hk => ?_
  rw [hk] at h
  revert h
  decide

namespace Frame

variable {f : Frame} {k : Nat} {i : Instr} {ls : List Line}

theorem fits_loadAll {os : List Operand} {ms : List Line} {d e : Nat}
    (h : f.loadAll os = .ok ls) (rest : Fits (d + os.length) ms e) : Fits d (ls ++ ms) e := by
  induction os generalizing d ls with
  | nil =>
    cases h
    exact rest
  | cons o os ih =>
    obtain ⟨l, ls, hl, hls, rfl⟩ := loadAll_cons_eq_ok.1 h
    refine Fits.moves (moves_load hl) (ih hls ?_)
    rwa [List.length_cons, Nat.add_comm os.length, ← Nat.add_assoc] at rest

theorem fits_storeTemp {d : Temp} {l : Line} (h : f.storeTemp d = .ok l) : Fits 1 [l] 0 :=
  Fits.moves (moves_storeTemp h) .nil

theorem fits_compareLines (k : Nat) (t : Test) : Fits 2 (compareLines k t) 1 := by
  have hpush : ∀ v, (Line.push v).Moves 0 1 := fun _ => ⟨rfl, rfl, rfl⟩
  refine Fits.jumpIf (x := ⟨"cmp_true", k⟩) (Fits.moves (hpush 0) ?_)
  refine Fits.goto (x := ⟨"cmp_end", k⟩) (Fits.label (x := ⟨"cmp_true", k⟩) ?_)
  exact Fits.moves (hpush 1) (Fits.label (x := ⟨"cmp_end", k⟩) .nil)

theorem fits_operator {op : BinaryOp} {l r : Ty} (h : operator k op l r = .ok ls) : Fits 2 ls 1 := by
  rcases operator_cases h with ⟨w, _, rfl⟩ | ⟨_, c, t, _, _, rfl⟩
  · exact Fits.moves (d := 0) (m := 2) (n := 1) ⟨rfl, rfl, rfl⟩ .nil
  · exact fits_compareLines k t

theorem fits_unaryLines (op : UnaryOp) : Fits 1 (unaryLines op) 1 := by
  cases op with
  | not =>
    exact Fits.moves (d := 1) (m := 0) (n := 1) ⟨rfl, rfl, rfl⟩
      (Fits.moves (d := 0) (m := 2) (n := 1) ⟨rfl, rfl, rfl⟩ .nil)
  | neg => exact Fits.moves (d := 0) (m := 1) (n := 1) ⟨rfl, rfl, rfl⟩ .nil

theorem fits_result {dest : Option Temp} {ret : Ty} (h : f.result dest ret = .ok ls)
    (hdest : dest.isSome = true → ret.isVoid = false) : Fits (if ret.isVoid then 0 else 1) ls 0 := by
  rcases result_cases h with ⟨d, s, rfl, hs, rfl⟩ | ⟨_, rfl⟩
  · rw [hdest rfl]
    exact fits_storeTemp hs
  · cases ret.isVoid with
    | true => exact .nil
    | false => exact Fits.moves (d := 0) (m := 1) (n := 0) ⟨rfl, rfl, rfl⟩ .nil

theorem moves_invoke {c : Call} {t : MethodType} (ht : f.unit.methodType c.params c.ret = .ok t)
    (hc : c.Regular) : (Line.invoke c.dispatch c.owner c.method t).Moves
      (c.receiver.toList ++ c.args).length (if c.ret.isVoid then 0 else 1) := by
  obtain ⟨ps, r, hps, hr, rfl⟩ := ClassCode.methodType_eq_ok ht
  refine ⟨rfl, ?_, ?_⟩
  · rw [Line.pops, List.length_append, hc.receiver, hc.args, length_fieldTypes hps]
  · rw [Line.pushes, (ClassCode.encodes_of_fieldType hr).isVoid]

theorem fits_leave {v : Option Operand} {l : Line} (h : Line.leave f.method.returnTy = .ok l)
    (hv : (Instr.ret v).Regular f.method.returnTy)
    (harray : f.method.returnTy.isVoid = true → f.method.returnTy.isArray = false) :
    Fits v.toList.length [l] 0 := by
  rcases leave_eq_ok h harray with ⟨_, rfl⟩ | ⟨hvoid, c, _, rfl⟩
  · exact Fits.ret (Nat.zero_le _)
  · cases v with
    | none =>
      rw [show f.method.returnTy.isVoid = true from hv] at hvoid
      cases hvoid
    | some o => exact Fits.ret (Nat.le_refl 1)

/-- The lines of an instruction begin and end with nothing on the stack. -/
theorem Selects.fits (h : f.Selects k i ls) (hi : i.Regular f.method.returnTy)
    (harray : f.method.returnTy.isVoid = true → f.method.returnTy.isArray = false) :
    Fits 0 ls 0 := by
  have hthis : (Line.load .object 0).Moves 0 1 := ⟨rfl, rfl, rfl⟩
  cases h with
  | assignVar hl hs => exact Fits.moves (moves_load hl) (Fits.moves (moves_storeVar hs) .nil)
  | assignTemp hl hs => exact Fits.moves (moves_load hl) (fits_storeTemp hs)
  | assignElement hls _ =>
    exact fits_loadAll hls (Fits.moves (d := 0) (m := 3) (n := 0) ⟨rfl, rfl, rfl⟩ .nil)
  | binary hls hos hs => exact fits_loadAll hls ((fits_operator hos).append (fits_storeTemp hs))
  | unary hl hs =>
    exact Fits.moves (moves_load hl) ((fits_unaryLines _).append (fits_storeTemp hs))
  | call hls ht hrs =>
    refine fits_loadAll hls (Fits.moves (moves_invoke ht hi) ?_)
    rw [Nat.zero_add]
    exact fits_result hrs hi.dest
  | new hs => exact Fits.moves (d := 0) (m := 0) (n := 1) ⟨rfl, rfl, rfl⟩ (fits_storeTemp hs)
  | newArray hl ha hs =>
    exact Fits.moves (moves_load hl) (Fits.moves (moves_allocate ha) (fits_storeTemp hs))
  | arrayLoad hls _ hs =>
    exact fits_loadAll hls
      (Fits.moves (d := 0) (m := 2) (n := 1) ⟨rfl, rfl, rfl⟩ (fits_storeTemp hs))
  | arrayLength hl hs =>
    exact Fits.moves (moves_load hl)
      (Fits.moves (d := 0) (m := 1) (n := 1) ⟨rfl, rfl, rfl⟩ (fits_storeTemp hs))
  | getField _ hs =>
    exact Fits.moves hthis
      (Fits.moves (d := 0) (m := 1) (n := 1) ⟨rfl, rfl, rfl⟩ (fits_storeTemp hs))
  | putField hl _ =>
    exact Fits.moves hthis (Fits.moves (d := 1) (moves_load hl)
      (Fits.moves (d := 0) (m := 2) (n := 0) ⟨rfl, rfl, rfl⟩ .nil))
  | ret hls hl =>
    refine fits_loadAll hls ?_
    rw [Nat.zero_add]
    exact fits_leave hl hi harray
  | @goto l =>
    have hgoto := Fits.goto (x := l) .nil
    rwa [Label.depth_of_structure hi] at hgoto
  | @branch _ l _ hc =>
    have hbranch := Fits.ifTrue (x := l) .nil
    rw [Label.depth_of_structure hi] at hbranch
    exact Fits.moves (moves_load hc) hbranch
  | @label l _ =>
    have hlabel := Fits.label (x := l) .nil
    rwa [Label.depth_of_structure hi] at hlabel

theorem Selects.falls_getLast (h : f.Selects k i ls) (hi : i.endsBlock = true) :
    ∃ l ∈ ls.getLast?, l.falls = false := by
  cases h with
  | goto => exact ⟨_, rfl, rfl⟩
  | ret _ hl =>
    obtain ⟨c, rfl⟩ := Line.eq_ret_of_leave hl
    exact ⟨.ret c, by simp, rfl⟩
  | _ => cases hi

theorem Assembles.balanced {a : MethodAssembly} (ha : f.Assembles a) (hm : f.method.Regular) :
    Balanced a.blocks := by
  have hlength := length_selectAll ha.blocks
  obtain ⟨t, ht⟩ := ha.returnTy
  have harray := (ClassCode.encodes_of_fieldType ht).array
  refine balanced_of_fits ?_ ?_
  · intro ls hls
    obtain ⟨j, hj⟩ := List.getElem?_of_mem hls
    obtain ⟨n, i, hi, hselect⟩ := exists_instr ha.blocks hj
    exact hselect.fits (hm.instrs _ (List.mem_of_getElem? hi)) harray
  · obtain ⟨i, hi, hends⟩ := hm.ends
    rw [Option.mem_def, List.getLast?_eq_getElem?] at hi
    obtain ⟨n, ls, hblock, hselect⟩ := exists_selects ha.blocks hi
    rw [← hlength, ← List.getLast?_eq_getElem?] at hblock
    obtain ⟨before, hbefore⟩ := List.getLast?_eq_some_iff.1 hblock
    obtain ⟨l, hl, hfalls⟩ := hselect.falls_getLast hends
    refine ⟨l, ?_, hfalls⟩
    rw [hbefore, List.flatten_append, List.flatten_singleton, List.getLast?_append,
      Option.mem_def.1 hl]
    rfl

end Frame

theorem balanced_constructorLines (superName : String) : Balanced [constructorLines superName] := by
  refine balanced_of_fits ?_ ⟨.ret none, rfl, rfl⟩
  rw [List.forall_mem_singleton]
  exact Fits.moves (d := 0) (m := 0) (n := 1) ⟨rfl, rfl, rfl⟩
    (Fits.moves (d := 0) (m := 1) (n := 0) ⟨rfl, rfl, rfl⟩ (Fits.ret (Nat.zero_le 0)))

namespace ClassCode

theorem forall₂_assembleMethods {c : ClassCode} {ms : List MethodCode} {as : List MethodAssembly}
    (h : c.assembleMethods ms = .ok as) :
    List.Forall₂ (fun m a => c.assembleMethod m = .ok a) ms as := by
  induction ms generalizing as with
  | nil =>
    cases h
    exact .nil
  | cons m ms ih =>
    simp only [assembleMethods, bind_eq_ok_iff, pure_eq_ok_iff] at h
    obtain ⟨a, ha, as, has, rfl⟩ := h
    exact .cons ha (ih has)

theorem balanced_of_assembleMethod {c : ClassCode} {m : MethodCode} {a : MethodAssembly}
    (h : c.assembleMethod m = .ok a) (hm : m.Regular) :
    a.blocks.length = m.instrs.length ∧ Balanced a.blocks ∧ a.WordsSuffice := by
  obtain ⟨f, hf, _⟩ := bind_eq_ok_iff.1 h
  obtain ⟨_, hmethod, _⟩ := frame_eq_ok hf
  have hassembles := assembles_of_assembleMethod hf h
  subst hmethod
  have hbalanced := hassembles.balanced hm
  exact ⟨Frame.length_selectAll hassembles.blocks, hbalanced,
    MethodAssembly.wordsSuffice_of_balanced hbalanced⟩

end ClassCode

namespace Program

theorem regular_prepared {p : Program} (hd : p.analyze.diagnostics = []) (hown : p.HasOwnName)
    {o : Options} : ∀ d ∈ (p.prepared o).paired (.ofProgram p),
      ∀ n ∈ Stmt.nodesOf d.1.body, Scope.Regular ⟨.ofProgram p, d.2⟩ n := by
  intro d hmem
  obtain ⟨d', hd', rfl⟩ := mem_paired_prepared hmem
  have hexternal : (p.scopeOf d').symbols.isExternal (p.scopeOf d').symbols.ownTy = false :=
    p.hasOwnName_iff.1 hown
  have hregular := Scope.regular_of_checkBody hexternal (checkBody_eq_nil hd hd')
  exact o.prepare_induction (P := fun b => ∀ n ∈ Stmt.nodesOf b, (p.scopeOf d').Regular n)
    (MethodDecl.optimize_induction fun _ _ hr h => hr.regular h) hregular

/-- Assembly respects the stack, also that of a program that others surround, and with and without
optimisation. The program has no findings, and its name is its own. -/
theorem balanced_of_compile {p : Program} (hd : p.analyze.diagnostics = []) (hown : p.HasOwnName)
    {o : Options} {c : Compiled} {text : String} (hc : p.compile o = .ok c)
    (ht : c.assembly = some text) :
    ∃ code σ a, p.lowered o = .ok code σ ∧ code.assemble = .ok a ∧ a.text = text ∧
      Balanced [constructorLines a.superName] ∧
      List.Forall₂ (fun m b =>
        b.blocks.length = m.instrs.length ∧ Balanced b.blocks ∧ b.WordsSuffice)
        code.methods a.methods := by
  obtain ⟨a, hassembled, htext⟩ := exists_assembly_iff.1 ⟨c, hc, ht⟩
  obtain ⟨code, σ, hl, ha⟩ := assembled_eq_ok_iff.1 hassembled
  refine ⟨code, σ, a, hl, ha, htext, balanced_constructorLines _, ?_⟩
  have hregular := regular_of_lower hl (regular_prepared hd hown)
  simp only [ClassCode.assemble, bind_eq_ok_iff, pure_eq_ok_iff] at ha
  obtain ⟨fields, _, methods, hmethods, rfl⟩ := ha
  refine List.Forall₂.imp (fun m b h => ClassCode.balanced_of_assembleMethod h.2 h.1)
    ((List.forall₂_and_left _ _).2 ⟨hregular, ClassCode.forall₂_assembleMethods hmethods⟩)

/-- A class that others surround: a call to an import by the value of a context, one that is left to
the superclass, and calls on the class itself with and without values in the place of an array. -/
def meter : Program :=
  let var (n : String) : Expr := .name n {}
  let int (n : Int32) : Expr := .literal (.int n) {}
  { imports := [{ path := "lib.Gauge" }]
    classDecl := {
      name := "Meter"
      superclass := some "Base"
      methods := [
        { name := "rest", returns := { name := "void" }
          body := [.expr (.call none "report" [int 1] {}) {}] },
        { name := "level", returns := { name := "int" }
          params := [{ type := { name := "int" }, name := "limit" },
            { type := { name := "int", isArray := true, isVararg := true }, name := "xs" }]
          locals := [{ type := { name := "boolean" }, name := "high" }]
          body := [
            .assign (var "high") (.binary .lt (.call (some (var "Gauge")) "read"
              [.length (var "xs") {}] {}) (.binary .add (int 2) (int 3) {}) {}) {},
            .cond (var "high") (.expr (.call (some (.this {})) "rest" [] {}) {})
              (some (.expr (.call none "level" [var "limit"] {}) {})) {},
            .ret (some (.call (some (.this {})) "level" [int 1, int 2, var "limit"] {})) {}] }] } }

theorem analyze_meter : meter.analyze.diagnostics = [] := by
  decide +kernel

theorem hasOwnName_meter : meter.HasOwnName :=
  ⟨by decide +kernel, by decide⟩

theorem balanced_meter :
    meter.analyze.diagnostics = [] ∧ meter.HasOwnName ∧
      ∃ c text, meter.compile { optimize := true } = .ok c ∧ c.assembly = some text ∧
        ∃ code σ a, meter.lowered { optimize := true } = .ok code σ ∧ code.assemble = .ok a ∧
          a.text = text ∧ Balanced [constructorLines a.superName] ∧
          List.Forall₂ (fun m b =>
            b.blocks.length = m.instrs.length ∧ Balanced b.blocks ∧ b.WordsSuffice)
            code.methods a.methods := by
  have hok : (meter.assembled { optimize := true }).1.isOk = true := by
    decide +kernel
  obtain ⟨a, ha⟩ := exists_of_isOk hok
  obtain ⟨c, hc, ht⟩ := exists_assembly_iff.2 ⟨a, ha, rfl⟩
  exact ⟨analyze_meter, hasOwnName_meter, c, a.text, hc, ht,
    balanced_of_compile analyze_meter hasOwnName_meter hc ht⟩

end Program

end SingleClass
