import Mathlib.Data.Finset.Card
import Mathlib.Data.List.Induction
import SingleClass.Analysis.Declarations
set_option autoImplicit false

/-!
What the review of declarations accepts. Nothing is reported exactly if every scope declares its
names once, every variable has a type that it can have, and varargs stand last
(`Program.review_eq_nil_iff`). A name that is declared again is reported at each of its places but
the first, in the order of the source (`Program.filter_review`).
-/

namespace SingleClass

structure Entry where
  name : String
  span : Span

namespace Entry

def duplicate (k : DeclScope) (e : Entry) : Diagnostic := .problem e.span (.duplicate k e.name)

/-- The declarations of a scope whose name an earlier one has, in order. -/
def repeated (es : List Entry) : List Entry :=
  (es.zipIdx.filter fun e => e.1.name ∈ (es.take e.2).map (·.name)).map (·.1)

def duplicates (k : DeclScope) : (seen : List String) → List Entry → List Diagnostic
  | _, [] => []
  | seen, e :: es => duplicateIn k seen e.name e.span ++ duplicates k (e.name :: seen) es

theorem repeated_concat (es : List Entry) (e : Entry) :
    repeated (es ++ [e]) = repeated es ++ if e.name ∈ es.map (·.name) then [e] else [] := by
  have hearlier : (es.zipIdx.filter fun d => d.1.name ∈ ((es ++ [e]).take d.2).map (·.name)) =
      es.zipIdx.filter fun d => d.1.name ∈ (es.take d.2).map (·.name) := by
    refine List.filter_congr fun d hd => ?_
    have hlt := List.snd_lt_of_mem_zipIdx hd
    rw [List.take_append_of_le_length (by omega)]
  unfold repeated
  rw [List.zipIdx_append, List.filter_append, hearlier, List.map_append]
  congr 1
  by_cases h : e.name ∈ es.map (·.name) <;> simp_all

theorem duplicates_concat (k : DeclScope) (seen : List String) (es : List Entry) (e : Entry) :
    duplicates k seen (es ++ [e]) =
      duplicates k seen es ++ duplicateIn k (es.map (·.name) ++ seen) e.name e.span := by
  induction es generalizing seen with
  | nil => simp [duplicates]
  | cons d es ih =>
    simp only [List.cons_append, duplicates, ih, List.append_assoc]
    congr 2
    simp [duplicateIn, or_left_comm]

theorem duplicates_eq (k : DeclScope) (es : List Entry) :
    duplicates k [] es = (repeated es).map (duplicate k) := by
  induction es using List.reverseRecOn with
  | nil => rfl
  | append_singleton es e ih =>
    rw [duplicates_concat, repeated_concat, ih, List.map_append, List.append_nil, duplicateIn]
    split <;> rfl

theorem repeated_eq_nil_iff (es : List Entry) : repeated es = [] ↔ (es.map (·.name)).Nodup := by
  induction es using List.reverseRecOn with
  | nil => simp [repeated]
  | append_singleton es e ih =>
    rw [repeated_concat, List.append_eq_nil_iff, ih, List.map_append, List.nodup_append]
    simp

theorem length_repeated (es : List Entry) :
    (repeated es).length + (es.map (·.name)).toFinset.card = es.length := by
  induction es using List.reverseRecOn with
  | nil => rfl
  | append_singleton es e ih =>
    have hnames : ((es ++ [e]).map (·.name)).toFinset =
        insert e.name (es.map (·.name)).toFinset := by
      ext n
      simp
    rw [repeated_concat, List.length_append, List.length_append, hnames]
    by_cases h : e.name ∈ es.map (·.name)
    · rw [if_pos h, Finset.insert_eq_of_mem (List.mem_toFinset.2 h)]
      simp only [List.length_singleton]
      omega
    · rw [if_neg h, Finset.card_insert_of_notMem (by simpa using h)]
      simp only [List.length_nil, List.length_singleton]
      omega

example : (repeated [⟨"a", {}⟩, ⟨"b", {}⟩, ⟨"a", {}⟩, ⟨"a", {}⟩]).map (·.name) = ["a", "a"] := by
  decide

end Entry

def Import.entry (i : Import) : Entry := { name := i.simpleName, span := i.span }
def VarDecl.entry (v : VarDecl) : Entry := { name := v.name, span := v.span }
def MethodDecl.entry (m : MethodDecl) : Entry := { name := m.name, span := m.span }
def Symbol.entry (v : Symbol) : Entry := { name := v.name, span := v.span }

theorem Symbol.map_entry_ofDecl (vs : List VarDecl) :
    (vs.map Symbol.ofDecl).map Symbol.entry = vs.map VarDecl.entry := by
  rw [List.map_map]
  rfl

/-- The scopes of each kind, in order: the class has one scope of fields, say, and every method one of
parameters. -/
def Program.scopes (p : Program) : DeclScope → List (List Entry)
  | .imports => [p.imports.map Import.entry]
  | .fields => [p.classDecl.fields.map VarDecl.entry]
  | .methods => [p.classDecl.methods.map MethodDecl.entry]
  | .params => p.classDecl.methods.map fun m => m.params.map VarDecl.entry
  | .locals => p.classDecl.methods.map fun m => m.locals.map VarDecl.entry

def TypeName.builtIn : List String := ["int", "boolean", "String", "void"]

namespace Program

/-- A class that the type names is the class itself, its superclass or an import. -/
def Sees (p : Program) (t : TypeName) : Prop :=
  t.name ∈ TypeName.builtIn ∨ t.name = p.classDecl.name ∨ p.classDecl.superclass = some t.name ∨
    ∃ i ∈ p.imports, i.simpleName = t.name

/-- A variable can be declared: it is not of void, nor of an array of it, and the type is seen. -/
structure SeesVar (p : Program) (v : VarDecl) : Prop where
  notVoid : v.type.name ≠ "void"
  sees : p.Sees v.type

structure WellDeclaredMethod (p : Program) (m : MethodDecl) : Prop where
  returns : p.Sees m.returns
  params : (m.params.map (·.name)).Nodup
  locals : (m.locals.map (·.name)).Nodup
  disjoint : ∀ v ∈ m.locals, ∀ w ∈ m.params, v.name ≠ w.name
  varargs : ∀ v ∈ m.params.dropLast, v.type.isVararg = false
  vars : ∀ v ∈ m.params ++ m.locals, p.SeesVar v

structure WellDeclared (p : Program) : Prop where
  imports : (p.imports.map (·.simpleName)).Nodup
  fields : (p.classDecl.fields.map (·.name)).Nodup
  methods : (p.classDecl.methods.map (·.name)).Nodup
  vars : ∀ v ∈ p.classDecl.fields, p.SeesVar v
  each : ∀ m ∈ p.classDecl.methods, p.WellDeclaredMethod m

end Program

theorem Ty.kindOfName_of_notMem {n : String} (h : n ∉ TypeName.builtIn) :
    kindOfName n = .named n := by
  simp only [TypeName.builtIn, List.mem_cons, List.not_mem_nil, or_false, not_or] at h
  unfold kindOfName
  split
  · simp at h
  · simp at h
  · simp at h
  · simp at h
  · rfl

theorem Ty.isVoid_ofName_iff (t : TypeName) : (Ty.ofName t).isVoid = true ↔ t.name = "void" := by
  rw [isVoid, decide_eq_true_eq]
  show kindOfName t.name = .void ↔ t.name = "void"
  unfold kindOfName
  split <;> simp_all

theorem Program.isKnown_iff {p : Program} {t : TypeName} :
    (Symbols.ofProgram p).isKnown (.ofName t) = true ↔ p.Sees t := by
  by_cases hbuilt : t.name ∈ TypeName.builtIn
  · refine iff_of_true ?_ (.inl hbuilt)
    simp only [TypeName.builtIn, List.mem_cons, List.not_mem_nil, or_false] at hbuilt
    rcases hbuilt with h | h | h | h <;> simp [Symbols.isKnown, Ty.ofName, Ty.kindOfName, h]
  · have hkind : (Ty.ofName t).kind = .named t.name := Ty.kindOfName_of_notMem hbuilt
    have himport : (Symbols.ofProgram p).isImported t.name = true ↔
        ∃ i ∈ p.imports, i.simpleName = t.name := by
      simp [Symbols.isImported, Symbols.import?, findImport, Symbols.ofProgram]
    have hclass : (Symbols.ofProgram p).isKnown (.ofName t) = true ↔
        t.name = p.classDecl.name ∨ (Symbols.ofProgram p).isImported t.name = true ∨
          p.classDecl.superclass = some t.name := by
      simp only [Symbols.isKnown, Symbols.isExternal, hkind, Symbols.isSuperclass,
        Bool.or_eq_true, decide_eq_true_eq]
      rfl
    rw [hclass, himport, Sees, or_comm (b := p.classDecl.superclass = _)]
    simp [hbuilt]

theorem reviewImports_eq (seen : List String) (is : List Import) :
    reviewImports seen is = Entry.duplicates .imports seen (is.map Import.entry) := by
  induction is generalizing seen with
  | nil => rfl
  | cons i is ih => rw [reviewImports, ih]; rfl

namespace Symbols

theorem reviewVars_eq_nil_iff (S : Symbols) (k : DeclScope) (seen : List String)
    (vs : List Symbol) :
    S.reviewVars k seen vs = [] ↔
      Entry.duplicates k seen (vs.map Symbol.entry) = [] ∧ ∀ v ∈ vs, S.reviewVarTy v = [] := by
  induction vs generalizing seen with
  | nil => simp [reviewVars, Entry.duplicates]
  | cons v vs ih =>
    simp only [reviewVars, List.map_cons, Entry.duplicates, List.append_eq_nil_iff, ih,
      List.forall_mem_cons]
    exact and_and_and_comm

theorem reviewMethods_eq_nil_iff (S : Symbols) (seen : List String) (ds : List MethodDecl) :
    S.reviewMethods seen (ds.zip (ds.map .ofDecl)) = [] ↔
      Entry.duplicates .methods seen (ds.map MethodDecl.entry) = [] ∧
        ∀ d ∈ ds, S.reviewMethod d.returns.span (.ofDecl d) = [] := by
  induction ds generalizing seen with
  | nil => simp [reviewMethods, Entry.duplicates]
  | cons d ds ih =>
    simp only [List.map_cons, List.zip_cons_cons, reviewMethods, Entry.duplicates,
      List.append_eq_nil_iff, ih, List.forall_mem_cons]
    exact and_and_and_comm

theorem reviewVarTy_eq_nil_iff (S : Symbols) (v : Symbol) :
    S.reviewVarTy v = [] ↔ v.ty.isVoid = false ∧ S.isKnown v.ty = true := by
  unfold reviewVarTy
  split
  · next hvoid => simp [hvoid]
  · next hvoid => simp [hvoid]

end Symbols

theorem reviewVarargs_eq_nil_iff (vs : List Symbol) :
    reviewVarargs vs = [] ↔ ∀ v ∈ vs.dropLast, v.ty.isVararg = false := by
  fun_induction reviewVarargs vs with
  | case1 => simp
  | case2 v => simp
  | case3 v w vs ih =>
    rw [List.append_eq_nil_iff, ih, List.dropLast_cons_cons, List.forall_mem_cons]
    simp

theorem Signature.reviewShadowing_eq_nil_iff (m : Signature) :
    m.reviewShadowing = [] ↔ ∀ v ∈ m.locals, ∀ w ∈ m.params, v.name ≠ w.name := by
  have hparam : ∀ n, (m.param? n).isSome = true ↔ ∃ w ∈ m.params, w.name = n := by simp [param?]
  simp only [reviewShadowing, List.filterMap_eq_nil_iff, ite_eq_right_iff, hparam]
  refine forall₂_congr fun v _ => ?_
  simp [eq_comm]

namespace Program

variable (p : Program)

theorem reviewVarTy_eq_nil_iff (v : VarDecl) :
    (Symbols.ofProgram p).reviewVarTy (.ofDecl v) = [] ↔ p.SeesVar v := by
  have hvoid : (Symbol.ofDecl v).ty.isVoid = true ↔ v.type.name = "void" := Ty.isVoid_ofName_iff _
  have hknown : (Symbols.ofProgram p).isKnown (Symbol.ofDecl v).ty = true ↔ p.Sees v.type :=
    isKnown_iff
  rw [Symbols.reviewVarTy_eq_nil_iff, hknown, ← Bool.not_eq_true, hvoid]
  exact ⟨fun h => ⟨h.1, h.2⟩, fun h => ⟨h.notVoid, h.sees⟩⟩

theorem reviewVars_eq_nil_iff (k : DeclScope) (vs : List VarDecl) :
    (Symbols.ofProgram p).reviewVars k [] (vs.map .ofDecl) = [] ↔
      (vs.map (·.name)).Nodup ∧ ∀ v ∈ vs, p.SeesVar v := by
  rw [Symbols.reviewVars_eq_nil_iff, Entry.duplicates_eq, List.map_eq_nil_iff,
    Entry.repeated_eq_nil_iff, List.map_map, List.map_map]
  simp only [List.forall_mem_map, reviewVarTy_eq_nil_iff]
  rfl

theorem reviewMethod_eq_nil_iff (m : MethodDecl) :
    (Symbols.ofProgram p).reviewMethod m.returns.span (.ofDecl m) = [] ↔
      p.WellDeclaredMethod m := by
  have hvarargs : reviewVarargs (Signature.ofDecl m).params = [] ↔
      ∀ v ∈ m.params.dropLast, v.type.isVararg = false := by
    rw [reviewVarargs_eq_nil_iff, Signature.ofDecl, ← List.map_dropLast, List.forall_mem_map]
    rfl
  have hshadowing : (Signature.ofDecl m).reviewShadowing = [] ↔
      ∀ v ∈ m.locals, ∀ w ∈ m.params, v.name ≠ w.name := by
    simp only [Signature.reviewShadowing_eq_nil_iff, Signature.ofDecl, List.forall_mem_map]
    rfl
  have hreturns : (Symbols.ofProgram p).isKnown (Signature.ofDecl m).returnTy = true ↔
      p.Sees m.returns := isKnown_iff
  have hparams := p.reviewVars_eq_nil_iff .params m.params
  have hlocals := p.reviewVars_eq_nil_iff .locals m.locals
  change (Symbols.ofProgram p).reviewVars .params [] (Signature.ofDecl m).params = [] ↔ _ at hparams
  change (Symbols.ofProgram p).reviewVars .locals [] (Signature.ofDecl m).locals = [] ↔ _ at hlocals
  simp only [Symbols.reviewMethod, List.append_eq_nil_iff, hvarargs, hshadowing, hparams, hlocals,
    ite_eq_left_iff, List.cons_ne_nil, imp_false, not_not, hreturns]
  constructor
  · rintro ⟨⟨⟨⟨hreturns, hparams, hpvars⟩, hlocals, hlvars⟩, hvarargs⟩, hdisjoint⟩
    exact ⟨hreturns, hparams, hlocals, hdisjoint, hvarargs,
      List.forall_mem_append.2 ⟨hpvars, hlvars⟩⟩
  · intro h
    obtain ⟨hpvars, hlvars⟩ := List.forall_mem_append.1 h.vars
    exact ⟨⟨⟨⟨h.returns, h.params, hpvars⟩, h.locals, hlvars⟩, h.varargs⟩, h.disjoint⟩

/-- The review of the declarations of a program reports nothing exactly if they are well-formed. -/
theorem review_eq_nil_iff :
    (Symbols.ofProgram p).reviewDeclarations p = [] ↔ p.WellDeclared := by
  have hfields := p.reviewVars_eq_nil_iff .fields p.classDecl.fields
  have hmethods := (Symbols.ofProgram p).reviewMethods_eq_nil_iff [] p.classDecl.methods
  simp only [Entry.duplicates_eq, List.map_eq_nil_iff, Entry.repeated_eq_nil_iff, List.map_map,
    reviewMethod_eq_nil_iff] at hmethods
  rw [Symbols.reviewDeclarations, List.append_eq_nil_iff, List.append_eq_nil_iff, reviewImports_eq,
    Entry.duplicates_eq, List.map_eq_nil_iff, Entry.repeated_eq_nil_iff, List.map_map]
  refine (and_congr (and_congr_right fun _ => hfields) hmethods).trans ?_
  constructor
  · rintro ⟨⟨himports, hfields, hvars⟩, hmethods, heach⟩
    exact ⟨himports, hfields, hmethods, hvars, heach⟩
  · intro h
    exact ⟨⟨h.imports, h.fields, h.vars⟩, h.methods, h.each⟩

end Program

def Diagnostic.isDuplicate (k : DeclScope) (d : Diagnostic) : Bool :=
  match d.issue with
  | .semantic (.duplicate scope _) => scope = k
  | _ => false

theorem filter_duplicateIn (k scope : DeclScope) (seen : List String) (n : String) (p : Span) :
    (duplicateIn scope seen n p).filter (Diagnostic.isDuplicate k) =
      if scope = k then duplicateIn scope seen n p else [] := by
  have hone : (Diagnostic.problem p (.duplicate scope n)).isDuplicate k = decide (scope = k) := rfl
  unfold duplicateIn
  split
  · simp only [List.filter_cons, hone, List.filter_nil, decide_eq_true_eq]
  · simp

theorem Entry.filter_duplicates (k scope : DeclScope) (seen : List String) (es : List Entry) :
    (duplicates scope seen es).filter (Diagnostic.isDuplicate k) =
      if scope = k then duplicates scope seen es else [] := by
  induction es generalizing seen with
  | nil => simp [duplicates]
  | cons e es ih =>
    rw [duplicates, List.filter_append, ih, filter_duplicateIn]
    split <;> rfl

theorem filter_reviewVarargs (k : DeclScope) (vs : List Symbol) :
    (reviewVarargs vs).filter (Diagnostic.isDuplicate k) = [] := by
  fun_induction reviewVarargs vs with
  | case1 => rfl
  | case2 v => rfl
  | case3 v w vs ih =>
    rw [List.filter_append, ih, List.append_nil]
    split <;> rfl

theorem Signature.filter_reviewShadowing (k : DeclScope) (m : Signature) :
    m.reviewShadowing.filter (Diagnostic.isDuplicate k) = [] := by
  refine List.filter_eq_nil_iff.2 fun d hd => ?_
  obtain ⟨v, _, hv⟩ := List.mem_filterMap.1 hd
  split at hv <;> cases hv
  exact Bool.false_ne_true

namespace Symbols

variable (S : Symbols) (k : DeclScope)

theorem filter_reviewVarTy (v : Symbol) :
    (S.reviewVarTy v).filter (Diagnostic.isDuplicate k) = [] := by
  unfold reviewVarTy
  split
  · rfl
  · split <;> rfl

theorem filter_reviewVars (scope : DeclScope) (seen : List String) (vs : List Symbol) :
    (S.reviewVars scope seen vs).filter (Diagnostic.isDuplicate k) =
      if scope = k then Entry.duplicates scope seen (vs.map Symbol.entry) else [] := by
  induction vs generalizing seen with
  | nil => simp [reviewVars, Entry.duplicates]
  | cons v vs ih =>
    rw [reviewVars, List.filter_append, List.filter_append, filter_duplicateIn, filter_reviewVarTy,
      ih, List.append_nil]
    split <;> rfl

theorem filter_reviewMethod (span : Span) (d : MethodDecl) :
    (S.reviewMethod span (.ofDecl d)).filter (Diagnostic.isDuplicate k) =
      (if .params = k then Entry.duplicates .params [] (d.params.map VarDecl.entry) else []) ++
        if .locals = k then Entry.duplicates .locals [] (d.locals.map VarDecl.entry) else [] := by
  -- the other findings of a method are no duplicates
  have hreturns : (if S.isKnown (Signature.ofDecl d).returnTy then []
      else [Diagnostic.problem span (.unknownType (Signature.ofDecl d).returnTy.baseName)]).filter
        (Diagnostic.isDuplicate k) = [] := by
    split <;> rfl
  simp only [reviewMethod, List.filter_append, hreturns, filter_reviewVars, filter_reviewVarargs,
    Signature.filter_reviewShadowing, List.nil_append, List.append_nil]
  rw [Signature.ofDecl, Symbol.map_entry_ofDecl, Symbol.map_entry_ofDecl]

theorem filter_reviewMethods (seen : List String) (ds : List MethodDecl) :
    (S.reviewMethods seen (ds.zip (ds.map .ofDecl))).filter (Diagnostic.isDuplicate k) =
      if .methods = k then Entry.duplicates .methods seen (ds.map MethodDecl.entry)
      else ds.flatMap fun d =>
        (S.reviewMethod d.returns.span (.ofDecl d)).filter (Diagnostic.isDuplicate k) := by
  induction ds generalizing seen with
  | nil => simp [reviewMethods, Entry.duplicates]
  | cons d ds ih =>
    rw [List.map_cons, List.zip_cons_cons, reviewMethods, List.filter_append, List.filter_append,
      filter_duplicateIn, ih]
    by_cases hk : .methods = k
    · subst hk
      simp only [if_true, filter_reviewMethod, reduceCtorEq, if_false, List.append_nil]
      rfl
    · simp [hk]

end Symbols

theorem Program.filter_review (p : Program) (k : DeclScope) :
    ((Symbols.ofProgram p).reviewDeclarations p).filter (Diagnostic.isDuplicate k) =
      (p.scopes k).flatMap fun es => (Entry.repeated es).map (Entry.duplicate k) := by
  have hfields : (Symbols.ofProgram p).fields.map Symbol.entry =
      p.classDecl.fields.map VarDecl.entry :=
    Symbol.map_entry_ofDecl _
  have hpaired : p.paired (.ofProgram p) =
      p.classDecl.methods.zip (p.classDecl.methods.map .ofDecl) := rfl
  rw [Symbols.reviewDeclarations, List.filter_append, List.filter_append, reviewImports_eq,
    Entry.filter_duplicates, Symbols.filter_reviewVars, hpaired, Symbols.filter_reviewMethods,
    hfields]
  simp only [Symbols.filter_reviewMethod, Entry.duplicates_eq]
  cases k with
  | imports => simp [scopes, Symbols.ofProgram]
  | fields => simp [scopes]
  | methods => simp [scopes]
  | params | locals => simp [scopes, List.flatMap_map]

/-- The review accepts exactly the well-formed declarations. In general every scope has as many
findings of names declared again as it has declarations beyond its distinct names, one at each
declaration that is not the first of its name, in order. -/
theorem Program.review_exact (p : Program) :
    ((Symbols.ofProgram p).reviewDeclarations p = [] ↔ p.WellDeclared) ∧
      ∀ k : DeclScope,
        ((Symbols.ofProgram p).reviewDeclarations p).filter (Diagnostic.isDuplicate k) =
            (p.scopes k).flatMap (fun es => (Entry.repeated es).map (Entry.duplicate k)) ∧
          (p.scopes k).map (fun es => (Entry.repeated es).length) =
            (p.scopes k).map fun es => es.length - (es.map (·.name)).toFinset.card := by
  refine ⟨p.review_eq_nil_iff, fun k => ⟨p.filter_review k, ?_⟩⟩
  refine List.map_congr_left fun es _ => ?_
  have hlength := Entry.length_repeated es
  omega

end SingleClass
