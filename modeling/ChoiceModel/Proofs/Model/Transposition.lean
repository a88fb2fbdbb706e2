import ChoiceModel.Proofs.Expression.Translation
import ChoiceModel.Proofs.Model.Loading
import ChoiceModel.Proofs.Store.Meaning
import ChoiceModel.Proofs.Store.Operations
import ChoiceModel.Proofs.Store.Transposition

/-! A model with every matrix transposed and every orientation changed. It loads if the model does, and
no text tells the variables of the two apart. -/

namespace ChoiceModel

open Expression Store
open Model (Defect MatrixSpec GroupSpec kept)

variable {ο : Type}

namespace Store

section Additions

variable {t u : Matrices} {as : List Addition}

def Addition.transposed : Addition → Addition
  | matrix m orientation => .matrix m.transposed orientation.other
  | array name members orientation => .array name (members.map Matrix.transposed) orientation.other
  | collection name members orientation =>
    .collection name (members.map Matrix.transposed) orientation.other

theorem Addition.registered_transposed (a : Addition) : a.transposed.registered = a.registered := by
  cases a with
  | matrix m orientation => rfl
  | array name members orientation => rfl
  | collection name members orientation =>
    rw [transposed, registered, registered, Array.toList_map, List.map_map]
    rfl

theorem memberEntries_transposed (orientation : Orientation) (collection number : Nat)
    (members : List Matrix) :
    memberEntries orientation.other collection number (members.map Matrix.transposed) =
      (memberEntries orientation collection number members).map Entry.transposed := by
  induction members generalizing number with
  | nil => rfl
  | cons m members ih =>
    rw [List.map_cons, memberEntries, memberEntries, List.map_cons, ih]
    rfl

theorem Addition.entries_transposed (a : Addition) (place : Nat) :
    a.transposed.first :: a.transposed.others place =
      (a.first :: a.others place).map Entry.transposed := by
  cases a with
  | matrix m orientation => rfl
  | array name members orientation => rfl
  | collection name members orientation =>
    rw [transposed, others, others, Array.toList_map, memberEntries_transposed]
    rfl

theorem entriesFrom_transposed (place : Nat) (as : List Addition) :
    entriesFrom place (as.map Addition.transposed) = (entriesFrom place as).map Entry.transposed := by
  induction as generalizing place with
  | nil => rfl
  | cons a as ih =>
    rw [List.map_cons, entriesFrom, entriesFrom, a.entries_transposed, a.registered_transposed, ih,
      List.map_append]

theorem Matrices.addAll_transposed (h : addAll {} as = .ok t) :
    addAll {} (as.map Addition.transposed) = .ok t.transposed := by
  obtain ⟨hnames, rfl⟩ := addAll_empty_eq_ok_iff.mp h
  refine addAll_empty_eq_ok_iff.mpr ⟨?_, ?_⟩
  · rw [List.flatMap_map]
    simp only [Addition.registered_transposed]
    exact hnames
  · rw [transposed, entriesFrom_transposed, List.map_toArray]

theorem Matrices.allMatrices_of_addAll {P : Matrix → Prop} (h : addAll {} as = .ok t)
    (hall : ∀ a ∈ as, ∀ m ∈ a.matrices, P m) : t.AllMatrices P := by
  obtain ⟨-, rfl⟩ := addAll_empty_eq_ok_iff.mp h
  have hentries : ∀ place, ∀ e ∈ entriesFrom place as, ∀ m ∈ e.content.matrices, P m := by
    intro place
    clear h
    induction as generalizing place with
    | nil => exact fun _ he => nomatch he
    | cons a as ih =>
      obtain ⟨ha, has⟩ := List.forall_mem_cons.mp hall
      intro e he m hm
      rw [entriesFrom, List.mem_append] at he
      rcases he with he | he
      · exact ha m (mem_matrices_of_mem_entries he hm)
      · exact ih has _ e he m hm
  exact fun e he => hentries 0 e (List.mem_toArray.mp he)

end Additions

end Store

namespace Model

variable {m : Model} {v : Variables ο}

def MatrixSpec.transposed (spec : MatrixSpec) : MatrixSpec :=
  { spec with orientation := spec.orientation.other, values := transpose spec.values }

def GroupSpec.transposed (group : GroupSpec) : GroupSpec :=
  { group with
    orientation := group.orientation.other
    members := group.members.map MatrixSpec.transposed }

/-- The model with every matrix transposed and every orientation changed. -/
def transposed (m : Model) : Model :=
  { m with
    matrices := m.matrices.map MatrixSpec.transposed
    arrays := m.arrays.map GroupSpec.transposed
    collections := m.collections.map GroupSpec.transposed }

theorem MatrixSpec.square_transposed (spec : MatrixSpec) : spec.transposed.Square :=
  fun _ hrow => size_of_mem_transpose hrow

theorem MatrixSpec.Square.declared {spec : MatrixSpec} (h : spec.Square) : spec.declared.Square :=
  fun _ values hi => h values (Array.mem_of_getElem? hi)

theorem GroupSpec.declared_transposed (group : GroupSpec) :
    group.transposed.declared = group.declared.map Matrix.transposed := by
  rw [declared, declared, transposed, List.map_map, List.map_toArray, List.map_map]
  rfl

theorem additions_transposed (m : Model) :
    m.transposed.additions = m.additions.map Addition.transposed := by
  have harray : ∀ group : GroupSpec, group.transposed.array = group.array.transposed := fun group => by
    rw [GroupSpec.array, GroupSpec.declared_transposed]
    rfl
  have hcollection : ∀ group : GroupSpec,
      group.transposed.collection = group.collection.transposed := fun group => by
    rw [GroupSpec.collection, GroupSpec.declared_transposed]
    rfl
  simp only [additions, transposed, List.map_append, List.map_map, Function.comp_def, harray,
    hcollection]
  rfl

theorem matrixSpecs_transposed (m : Model) :
    m.transposed.matrixSpecs = m.matrixSpecs.map MatrixSpec.transposed := by
  simp only [matrixSpecs, transposed, List.map_append, List.map_flatMap, List.flatMap_map]
  rfl

theorem loadMatrices_transposed {t : Matrices} (h : m.loadMatrices = .ok t) :
    m.transposed.loadMatrices = .ok t.transposed := by
  refine loadMatrices_eq_ok_iff.mpr ⟨?_, ?_⟩
  · rw [matrixSpecs_transposed]
    exact List.forall_mem_map.mpr fun spec _ => spec.square_transposed
  · rw [additions_transposed]
    exact Matrices.addAll_transposed (loadMatrices_eq_ok_iff.mp h).2

theorem GroupSpec.square_of_mem_declared {group : GroupSpec} (h : ∀ spec ∈ group.members, spec.Square) :
    ∀ matrix ∈ group.declared.toList, matrix.Square := by
  rw [declared, List.toList_toArray, List.forall_mem_map]
  exact fun spec hspec => (h spec hspec).declared

theorem square_of_loadMatrices {t : Matrices} (h : m.loadMatrices = .ok t) :
    t.AllMatrices Matrix.Square := by
  obtain ⟨hsquare, hadded⟩ := loadMatrices_eq_ok_iff.mp h
  rw [matrixSpecs, List.forall_mem_append, List.forall_mem_append, List.forall_mem_flatMap,
    List.forall_mem_flatMap] at hsquare
  obtain ⟨hmatrices, harrays, hcollections⟩ := hsquare
  refine Matrices.allMatrices_of_addAll hadded ?_
  rw [additions, List.forall_mem_append, List.forall_mem_append, List.forall_mem_map,
    List.forall_mem_map, List.forall_mem_map]
  refine ⟨fun spec hspec => ?_, fun group hgroup => ?_, fun group hgroup => ?_⟩
  · exact List.forall_mem_singleton.mpr (hmatrices spec hspec).declared
  · exact GroupSpec.square_of_mem_declared (harrays group hgroup)
  · exact GroupSpec.square_of_mem_declared (hcollections group hgroup)

theorem load_transposed (h : m.load = .ok v) : m.transposed.load = .ok v.transposed := by
  obtain ⟨zones, households, alternatives, matrices, hz, hh, ha, hm, rfl⟩ := load_eq_ok_iff.mp h
  refine load_eq_ok_iff.mpr
    ⟨zones, households, alternatives, matrices.transposed, hz, hh, ha, loadMatrices_transposed hm, ?_⟩
  rw [Variables.transposed, Array.map_empty]
  rfl

end Model

namespace Expression

variable {v : Variables ο} {e : Expression}

/-- The expression is what a text compiles to, against some variables. -/
def IsOfText (ο : Type) (e : Expression) : Prop :=
  ∃ (text : String) (u u' : Variables ο), ofText? text u = (.ok e, u')

theorem valueSeen_transposed (he : e.IsOfText ο) (hv : v.matrices.AllMatrices Matrix.Square)
    (ctx : Store.Context ο) : e.valueSeen .silent v.transposed ctx () =
      Prod.map (Except.mapError EvalError.transposed) id (e.valueSeen .silent v ctx ()) := by
  obtain ⟨text, u, u', hcompile⟩ := he
  obtain ⟨c, hc, rfl⟩ := ofText?_eq_ok_iff.mp hcompile
  obtain ⟨t, ht⟩ := compile_eq_tree hc
  have hstore : ∀ cause : EvalError, cause.IsOfStore → cause.transposed = cause := by
    rintro _ (⟨_, _, rfl⟩ | ⟨_, rfl⟩)
    · rfl
    · rfl
  simp only [valueSeen, ht]
  exact evaluate_mapError hstore (fun i _ => Variables.read_transposed hv i ctx)
    fun i _ y => Variables.readIndexed_transposed hv i y ctx

theorem value_transposed (he : e.IsOfText ο) (hv : v.matrices.AllMatrices Matrix.Square)
    (ctx : Store.Context ο) :
    e.value v.transposed ctx = (e.value v ctx).mapError EvalError.transposed := by
  rw [value, value, valueSeen_transposed he hv]
  rfl

theorem solve_transposed (he : e.IsOfText ο) (hv : v.matrices.AllMatrices Matrix.Square)
    (ctx : Store.Context ο) : e.solve v.transposed ctx =
      Prod.map (Except.mapError EvalError.transposed) Variables.transposed (e.solve v ctx) := by
  unfold solve solveSeen
  rw [valueSeen_transposed he hv]
  rcases e.valueSeen .silent v ctx () with ⟨_ | x, _⟩
  · rfl
  · cases e.target? with
    | none => rfl
    | some i =>
      have hwrite := v.write_transposed i x ctx
      simp only [Prod.map, Except.mapError, id, Cells.write, hwrite]
      cases v.write i x ctx with
      | error err => rfl
      | ok w => rfl

end Expression

namespace Store

/-- Operations with expressions, and with data other than matrices. -/
def Operation.IsOfExpressions : Operation ο → Prop
  | .addMatrix .. | .addArray .. | .addCollection .. => False
  | .compileUtility _ | .solveUtility .. | .traceUtility .. => False
  | .solve e _ => e.IsOfText ο
  | _ => True

namespace Variables

variable {v : Variables ο} {operation : Operation ο} {operations : List (Operation ο)}

theorem translation_transposed : Translation (@transposed ο) where
  read := resolveRead_transposed
  array := resolveArray_transposed
  assign := resolveAssign_transposed

theorem perform_transposed (h : operation.IsOfExpressions)
    (hv : v.matrices.AllMatrices Matrix.Square) :
    v.transposed.perform operation = (v.perform operation).transposed := by
  cases operation with
  | resolveRead name => exact congrArg Prod.snd (resolveRead_transposed name v)
  | resolveArray name => exact congrArg Prod.snd (resolveArray_transposed name v)
  | resolveAssign name => exact congrArg Prod.snd (resolveAssign_transposed name v)
  | compile text => exact congrArg Prod.snd (translation_transposed.ofText? text v)
  | solve e ctx => exact congrArg Prod.snd (solve_transposed h hv ctx)
  | write i x ctx =>
    rw [perform, perform, write_transposed]
    cases v.write i x ctx with
    | error err => rfl
    | ok w => rfl
  | setScalar name x => rfl
  | addZoneColumn name values => rfl
  | addHouseholdColumn name values => rfl
  | addAlternativeColumn name values => rfl
  | register name f => rfl
  | _ => exact h.elim

theorem matrices_perform (h : operation.IsOfExpressions) :
    (v.perform operation).matrices = v.matrices := by
  cases operation with
  | setScalar name x => rfl
  | addZoneColumn name values => rfl
  | addHouseholdColumn name values => rfl
  | addAlternativeColumn name values => rfl
  | register name f => rfl
  | addMatrix m orientation => exact h.elim
  | addArray name members orientation => exact h.elim
  | addCollection name members orientation => exact h.elim
  | _ => exact (v.perform_settles rfl).matrices

theorem matrices_performAll (h : ∀ operation ∈ operations, operation.IsOfExpressions) :
    (v.performAll operations).matrices = v.matrices := by
  induction operations generalizing v with
  | nil => rfl
  | cons operation operations ih =>
    obtain ⟨hfirst, hrest⟩ := List.forall_mem_cons.mp h
    exact (ih hrest).trans (matrices_perform hfirst)

theorem performAll_transposed (h : ∀ operation ∈ operations, operation.IsOfExpressions)
    (hv : v.matrices.AllMatrices Matrix.Square) :
    v.transposed.performAll operations = (v.performAll operations).transposed := by
  induction operations generalizing v with
  | nil => rfl
  | cons operation operations ih =>
    obtain ⟨hfirst, hrest⟩ := List.forall_mem_cons.mp h
    have hkept : (v.perform operation).matrices.AllMatrices Matrix.Square := by
      rw [matrices_perform hfirst]
      exact hv
    have hstep := ih hrest hkept
    rw [← perform_transposed hfirst hv] at hstep
    exact hstep

/-- Texts do not tell `w` from `v`. They compile to the same, and have the same value in every context
or fail with the same error, in which at most the row and the column of a cell are exchanged. -/
structure SameTexts (v w : Variables ο) : Prop where
  compile : ∀ text, (ofText? text w).1 = (ofText? text v).1
  value : ∀ text e, (ofText? text v).1 = .ok e → ∀ ctx : Context ο,
    e.value (ofText? text w).2 ctx = (e.value (ofText? text v).2 ctx).mapError EvalError.transposed
  solve : ∀ text e, (ofText? text v).1 = .ok e → ∀ ctx : Context ο,
    (e.solve (ofText? text w).2 ctx).1 =
      (e.solve (ofText? text v).2 ctx).1.mapError EvalError.transposed

theorem sameTexts_transposed (hv : v.matrices.AllMatrices Matrix.Square) :
    v.SameTexts v.transposed := by
  have htext : ∀ text e, (ofText? text v).1 = .ok e → e.IsOfText ο :=
    fun text e he => ⟨text, v, (ofText? text v).2, Prod.ext he rfl⟩
  have hsquare : ∀ text, (ofText? text v).2.matrices.AllMatrices Matrix.Square := by
    intro text
    have hkept : (v.perform (.compile text)).matrices = v.matrices := matrices_perform trivial
    rw [← hkept] at hv
    exact hv
  refine ⟨fun text => ?_, fun text e he ctx => ?_, fun text e he ctx => ?_⟩
  · rw [translation_transposed.ofText?]
    rfl
  · rw [translation_transposed.ofText?]
    exact value_transposed (htext text e he) (hsquare text) ctx
  · rw [translation_transposed.ofText?]
    exact congrArg Prod.fst (solve_transposed (htext text e he) (hsquare text) ctx)

end Variables

end Store

namespace Model

/-- A model with every matrix transposed and every orientation changed loads if the model does, and texts
do not tell the variables of the two apart, whatever is done to both with expressions and other data. -/
theorem load_transposed_sameTexts {m : Model} {v : Variables ο} (h : m.load = .ok v) :
    ∃ w : Variables ο, m.transposed.load = .ok w ∧ ∀ history : List (Operation ο),
      (∀ operation ∈ history, operation.IsOfExpressions) →
        (v.performAll history).SameTexts (w.performAll history) := by
  refine ⟨v.transposed, load_transposed h, fun history hhistory => ?_⟩
  have hsquare : v.matrices.AllMatrices Matrix.Square := by
    obtain ⟨-, -, -, matrices, -, -, -, hm, rfl⟩ := load_eq_ok_iff.mp h
    exact square_of_loadMatrices hm
  rw [Variables.performAll_transposed hhistory hsquare]
  refine Variables.sameTexts_transposed ?_
  rw [Variables.matrices_performAll hhistory]
  exact hsquare

section Distances

def distances (rows : Array (Array Float)) : Model where
  matrices := [⟨"dist", .byDestination, rows⟩]

/-- The variables of the model, with as many bindings as have been resolved. -/
def distanceVariables (rows : Array (Array Float)) (bindings : Array Binding) : Variables Unit where
  matrices := ⟨#[⟨"dist", .matrix ⟨"dist", rows⟩, .byDestination⟩]⟩
  bindings := bindings

theorem load_distances (w x y z : Float) : (distances #[#[w, x], #[y, z]]).load =
    .ok (distanceVariables #[#[w, x], #[y, z]] #[]) := by
  cbv

set_option maxRecDepth 20000 in
theorem ofText?_distances (rows : Array (Array Float)) :
    ofText? "dist" (distanceVariables rows #[]) =
      (.ok ⟨"dist", .compiled ⟨Tree.program (.load ⟨"dist", 0⟩), none⟩⟩,
        distanceVariables rows #[⟨"dist", .matrix 0 .byDestination⟩]) := by
  cbv

/-- A matrix that is read towards the origin, and its transpose. -/
theorem load_transposed_sameTexts_distances : ∃ (v w : Variables Unit) (e : Expression),
    (distances #[#[0.0, 5.0], #[6.0, 0.0]]).load = .ok v ∧
      (distances #[#[0.0, 5.0], #[6.0, 0.0]]).transposed.load = .ok w ∧
      (ofText? "dist" w).1 = .ok e ∧
      e.value (ofText? "dist" w).2 ({ origin := some 1, destination := some 2 } : Store.Context Unit) =
        .ok 6.0 := by
  have hload := load_distances 0.0 5.0 6.0 0.0
  obtain ⟨w, hw, hsame⟩ := load_transposed_sameTexts hload
  have htexts := hsame [] nofun
  have hcompile := ofText?_distances #[#[0.0, 5.0], #[6.0, 0.0]]
  have hdist := congrArg Prod.fst hcompile
  have hvalue : ∀ (v : Variables Unit) (ctx : Store.Context Unit), Expression.value
      ⟨"dist", .compiled ⟨Tree.program (.load ⟨"dist", 0⟩), none⟩⟩ v ctx = v.read 0 ctx :=
    fun v ctx => congrArg Prod.fst (evaluate_load "dist" 0 v ctx)
  refine ⟨_, w, _, hload, hw, (htexts.compile "dist").trans hdist, ?_⟩
  refine (htexts.value "dist" _ hdist _).trans ?_
  change Except.mapError _ (Expression.value _ (ofText? "dist" (distanceVariables _ _)).2 _) = _
  rw [hcompile, hvalue]
  rfl

end Distances

end Model

end ChoiceModel
