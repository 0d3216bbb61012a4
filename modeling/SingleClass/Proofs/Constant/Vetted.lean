import SingleClass.Proofs.Constant.Compatibility
import SingleClass.Proofs.Lowering.Acceptance
set_option autoImplicit false

/-!
Operators and calls keep to their rules wherever they stand in an accepted body (`Scope.Vetted`), and
they do so still when literals of the right types have been put in (`Program.vetted_prepared`).
-/

namespace SingleClass

namespace Scope

variable {s : Scope}

/-- An operator has a type, and a call to a method of the class has as many arguments as the method
takes. -/
def Vetted (s : Scope) : Node → Prop
  | .expr (.binary op l r p) => ∃ t, s.typeOf (.binary op l r p) = .ok t
  | .expr (.call t m as _) =>
    ∀ c ∈ s.symbols.callee? m (t.map s.typeHint), c.arity.admits as.length = true
  | _ => True

theorem vetted_of_unreported (hown : s.symbols.isExternal s.symbols.ownTy = false) {n : Node}
    (h : s.Unreported n) : s.Vetted n := by
  match n with
  | .expr (.binary op l r p) => exact ⟨_, agrees hown (.binary op l r p) h⟩
  | .expr (.call t m as p) => exact admits_of_check_call hown h
  | .program | .importDecl _ | .classDecl _ | .field _ | .method _ | .stmt _ => trivial
  | .expr (.literal ..) | .expr (.name ..) | .expr (.this _) | .expr (.unary ..) | .expr (.paren _)
  | .expr (.index ..) | .expr (.length ..) | .expr (.newObject ..) | .expr (.newArray ..)
  | .expr (.arrayInit ..) => trivial

mutual

theorem Simplifies.vetted {e e' : Expr} (h : s.Simplifies e e') (hv : ∀ n ∈ e.nodes, s.Vetted n) :
    ∀ n ∈ e'.nodes, s.Vetted n := by
  match h with
  | .literal | .name | .read _ _ | .this | .compute _ _ _ | .unparen _ | .newObject =>
    simp [Expr.nodes, Vetted]
  | .binary hl hr =>
    simp only [Expr.nodes, List.cons_append, List.forall_mem_cons, List.forall_mem_append] at hv ⊢
    exact ⟨hv.1.imp fun t => ((Simplifies.binary hl hr).typeOf_eq_ok t).2, hl.vetted hv.2.1,
      hr.vetted hv.2.2⟩
  | .index ha hi =>
    simp only [Expr.nodes, List.cons_append, List.forall_mem_cons, List.forall_mem_append] at hv ⊢
    exact ⟨trivial, ha.vetted hv.2.1, hi.vetted hv.2.2⟩
  | .unary he | .paren he | .length he | .newArray he =>
    simp only [Expr.nodes, List.forall_mem_cons] at hv ⊢
    exact ⟨trivial, he.vetted hv.2⟩
  | .call has =>
    simp only [Expr.nodes, List.forall_mem_cons, Vetted] at hv ⊢
    rw [has.length_eq]
    exact ⟨hv.1, has.vetted hv.2⟩
  | .callOn ht has =>
    simp only [Expr.nodes, List.cons_append, List.forall_mem_cons, List.forall_mem_append, Vetted,
      Option.map_some] at hv ⊢
    rw [has.length_eq, ht.typeHint_eq]
    exact ⟨hv.1, ht.vetted hv.2.1, has.vetted hv.2.2⟩
  | .arrayInit hes =>
    simp only [Expr.nodes, List.forall_mem_cons] at hv ⊢
    exact ⟨trivial, hes.vetted hv.2⟩

theorem SimplifiesAll.vetted {es es' : List Expr} (h : s.SimplifiesAll es es')
    (hv : ∀ n ∈ Expr.nodesOf es, s.Vetted n) : ∀ n ∈ Expr.nodesOf es', s.Vetted n := by
  match h with
  | .nil => exact hv
  | .cons he hes =>
    simp only [Expr.nodesOf, List.forall_mem_append] at hv ⊢
    exact ⟨he.vetted hv.1, hes.vetted hv.2⟩

end

mutual

theorem SimplifiesStmt.vetted {t t' : Stmt} (h : s.SimplifiesStmt t t')
    (hv : ∀ n ∈ t.nodes, s.Vetted n) : ∀ n ∈ t'.nodes, s.Vetted n := by
  match h with
  | .block hb =>
    simp only [Stmt.nodes, List.forall_mem_cons] at hv ⊢
    exact ⟨trivial, hb.vetted hv.2⟩
  | .condThen hc ht | .loop hc ht =>
    simp only [Stmt.nodes, List.cons_append, List.forall_mem_cons, List.forall_mem_append] at hv ⊢
    exact ⟨trivial, hc.vetted hv.2.1, ht.vetted hv.2.2⟩
  | .condElse hc ht he =>
    simp only [Stmt.nodes, List.cons_append, List.forall_mem_cons, List.forall_mem_append] at hv ⊢
    exact ⟨trivial, ⟨hc.vetted hv.2.1.1, ht.vetted hv.2.1.2⟩, he.vetted hv.2.2⟩
  | .expr he | .retSome he =>
    simp only [Stmt.nodes, List.forall_mem_cons] at hv ⊢
    exact ⟨trivial, he.vetted hv.2⟩
  | .assignName hw =>
    simp only [Stmt.nodes, List.cons_append, List.forall_mem_cons, List.forall_mem_append] at hv ⊢
    exact ⟨trivial, hv.2.1, hw.vetted hv.2.2⟩
  | .assign _ ht hw =>
    simp only [Stmt.nodes, List.cons_append, List.forall_mem_cons, List.forall_mem_append] at hv ⊢
    exact ⟨trivial, ht.vetted hv.2.1, hw.vetted hv.2.2⟩
  | .retNone => exact hv

theorem SimplifiesBody.vetted {ts ts' : List Stmt} (h : s.SimplifiesBody ts ts')
    (hv : ∀ n ∈ Stmt.nodesOf ts, s.Vetted n) : ∀ n ∈ Stmt.nodesOf ts', s.Vetted n := by
  match h with
  | .nil => exact hv
  | .cons ht hts =>
    simp only [Stmt.nodesOf, List.forall_mem_append] at hv ⊢
    exact ⟨ht.vetted hv.1, hts.vetted hv.2⟩

end

theorem Optimizable.vetted {d : MethodDecl} (hd : s.Optimizable d)
    (hv : ∀ n ∈ Stmt.nodesOf d.body, s.Vetted n) :
    ∀ n ∈ Stmt.nodesOf d.optimize.1.body, s.Vetted n :=
  hd.fits.optimize_induction (P := fun b => ∀ n ∈ Stmt.nodesOf b, s.Vetted n)
    (Q := fun b => ∀ n ∈ Stmt.nodesOf b, s.Vetted n) hd.names hd.foreign
    (fun _ _ hb => hb.vetted) (fun _ h => h) hv

end Scope

/-- The parts of what is lowered keep to their rules, in a program without findings whose name is its
own and in which optimisation disguises nothing. -/
theorem Program.vetted_prepared {p : Program} (hown : p.HasOwnName) (ha : p.analyze.diagnostics = [])
    {o : Options} (hd : o.optimize = true → p.disguises = false) :
    ∀ d ∈ (p.prepared o).paired (.ofProgram p), ∀ n ∈ Stmt.nodesOf d.1.body,
      Scope.Vetted ⟨.ofProgram p, d.2⟩ n := by
  have hbodies : ∀ d ∈ p.paired (.ofProgram p), ∀ n ∈ Stmt.nodesOf d.1.body,
      Scope.Vetted ⟨.ofProgram p, d.2⟩ n := by
    rw [p.paired_ofProgram]
    intro pair hpair n hn
    obtain ⟨d, hmem, rfl⟩ := List.mem_map.1 hpair
    have hunreported := Scope.unreported_of_checkBody (checkBody_eq_nil ha hmem) n hn
    exact Scope.vetted_of_unreported (s := p.scopeOf d) (p.hasOwnName_iff.1 hown) hunreported
  unfold prepared
  split
  next ho =>
    rw [p.paired_optimize]
    intro pair hpair
    obtain ⟨d, hmem, rfl⟩ := List.mem_map.1 hpair
    exact (optimizable_of_analyze ha (hd ho) d hmem).vetted (hbodies d hmem)
  next => exact hbodies

end SingleClass
