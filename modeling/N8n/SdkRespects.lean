import N8n.SdkBoundary

/-! Every visit of the interpreter respects a lawful boundary, if the evaluation of the
nodes below does; by induction on the remaining depth so does `evaluate`, and with it
the interpretation of a program. -/

namespace N8n.Sdk.Boundary.Lawful

open Traced

variable {ν : Type} [JsNumber ν] {boundary : Boundary ν} {interpreter : Interpreter ν}
  (lawful : boundary.Lawful interpreter.host)

section Validators

omit [JsNumber ν]

theorem validateNodeType_respects (type : String) : boundary.Respects (fun _ => True) (validateNodeType type) := by
  unfold validateNodeType
  split
  · exact Stable.throw _
  · exact Stable.ite (fun _ => Stable.pure trivial) fun _ => Stable.throw _

theorem reject_respects (condition : Prop) [Decidable condition] (error : Thrown ν) :
    boundary.Respects (fun _ => True) (Comp.reject condition error : Eval ν Unit) :=
  Stable.mono (Stable.reject condition error) fun _ _ => trivial

theorem validateCallExpression_respects (callee : Expr ν) :
    boundary.Respects (fun _ => True) (validateCallExpression callee) := by
  unfold validateCallExpression
  split
  · split_ifs
    all_goals first | exact Stable.throw _ | exact Stable.pure trivial
  · exact reject_respects _ _
  · exact Stable.pure trivial

theorem validateMemberExpression_respects (property : Expr ν) (computed : Bool) :
    boundary.Respects (fun _ => True) (validateMemberExpression property computed) := by
  refine Stable.bind (reject_respects _ _) fun _ _ => ?_
  split
  · exact reject_respects _ _
  · exact reject_respects _ _
  · exact Stable.pure trivial

theorem methodName_respects (property : Expr ν) : boundary.Respects (fun _ => True) (methodName property) := by
  unfold methodName
  split
  · exact Stable.pure trivial
  · exact Stable.pure trivial
  · exact Stable.throw _

end Validators

include lawful

section Names

theorem literalValue_respects (literal : Literal ν) :
    boundary.Respects boundary.held (literalValue interpreter literal) := by
  cases literal with
  | regularExpression pattern flags =>
    exact Stable.bind lawful.newRegExp_respects fun addr held => Stable.pure held
  | _ => exact Stable.pure (lawful.primitive_held _ rfl)

theorem propertyName_respects (computed : Bool) (error : String) (property : Expr ν) :
    boundary.Respects (fun _ => True) (propertyName interpreter computed error property) := by
  unfold propertyName
  split
  · exact Stable.ite (fun _ => Stable.throw _) fun _ => Stable.pure trivial
  · rename_i literal
    refine Stable.bind (lawful.literalValue_respects literal) fun key held => ?_
    exact lawful.toText_respects (lawful.held_stored key held)
  · exact Stable.throw _

omit [JsNumber ν] lawful in
theorem variable_respects (name : String) :
    boundary.Respects (fun found => ∀ value, found = some value → boundary.held value)
      (variable_ name : Eval ν (Option (Value ν))) := by
  refine Stable.read fun s t related => ?_
  rw [related.1, related.2.1]
  exact ⟨rfl, fun value found => related.2.2.1 _ value found⟩

theorem visitIdentifier_respects (name : String) :
    boundary.Respects boundary.held (visitIdentifier interpreter name) := by
  refine Stable.bind (variable_respects name) fun found held => ?_
  cases found with
  | some value => exact Stable.pure (held value rfl)
  | none =>
    refine Stable.bind (reject_respects _ _) fun _ _ => ?_
    split
    · rename_i function found
      exact Stable.pure (lawful.function_held name function found)
    · split
      · rename_i value found
        refine Stable.pure (lawful.primitive_held value ?_)
        have member := List.lookup_eq_some_iff.mp found
        obtain ⟨before, after, split, _⟩ := member
        have isPrimitive : ∀ entry ∈ (nameTable : List (String × Value ν)), entry.2.isObject = false := by
          simp [nameTable, Value.isObject]
        exact isPrimitive (name, value) (by rw [split]; simp)
      · exact Stable.throw _

theorem inheritedMethod_respects (name : String) :
    boundary.Respects (fun value => boundary.stored value ∧ (value.truthy = true →
        boundary.ok (.found interpreter.host.objectPrototype name)))
      (inheritedProperty interpreter.host .undefined [interpreter.host.objectPrototype] name) := by
  have seen : ∀ addr ∈ [interpreter.host.objectPrototype], boundary.seen addr := by
    simpa using lawful.prototype_seen (by simp [Host.prototypes])
  refine Stable.mono (lawful.inheritedProperty_respects name (lawful.primitive_stored _ rfl) seen) ?_
  intro value found
  refine ⟨found.1, fun truthy => ?_⟩
  rcases found.2 with rfl | ⟨holder, member, allowed⟩
  · cases truthy
  · rwa [List.mem_singleton.mp member] at allowed

end Names

section Visits

variable {evaluate : Expr ν → Eval ν (Value ν)} (below : ∀ expr, boundary.Respects boundary.held (evaluate expr))
  {left right : Value ν} {thisArg : Value ν}
include below

omit [JsNumber ν] in
theorem arguments_respect (args : List (Expr ν)) :
    boundary.Respects (fun values => ∀ value ∈ values, boundary.stored value) (Comp.mapList evaluate args) := by
  refine Stable.mono (Stable.mapList below args) fun values held value member => ?_
  exact lawful.held_stored value (held value member)

theorem safeJsonMethod_respects (objectName name : String) (args : List (Expr ν)) :
    boundary.Respects (fun found => ∀ value, found = some value → boundary.held value)
      (safeJsonMethod interpreter evaluate objectName name args) := by
  refine Stable.ite (fun _ => Stable.pure (by simp)) fun _ => ?_
  refine Stable.ite (fun _ => ?_) fun _ => ?_
  · refine Stable.bind (lawful.arguments_respect below args) fun values stored => ?_
    refine Stable.bind (Stable.emit fun _ => lawful.safe_claim _ (by simp)) fun _ _ => ?_
    refine Stable.bind (runHost_respects (lawful.stringify_keeps values stored)) fun result held => ?_
    exact Stable.pure (by simpa using held)
  · refine Stable.bind (lawful.inheritedMethod_respects name) fun inherited found => ?_
    refine Stable.ite (fun truthy => ?_) fun _ => Stable.pure (by simp)
    refine Stable.bind (lawful.arguments_respect below args) fun values stored => ?_
    cases inherited with
    | object function =>
      refine Stable.bind (reject_respects _ _) fun _ _ => ?_
      refine Stable.bind (lawful.callHost_respects (fun _ => found.1) (found.2 truthy)
        (lawful.primitive_stored _ rfl) stored) fun result held => ?_
      exact Stable.pure (by simpa using held)
    | _ => exact Stable.throw _

omit below in
theorem repeatText_respects (text : String) {count : Value ν} (stored : boundary.stored count) :
    boundary.Respects boundary.held (repeatText interpreter text count) := by
  refine Stable.bind (lawful.toPrimitive_respects false stored) fun number _ => ?_
  split
  · exact Stable.pure (lawful.primitive_held _ rfl)
  · exact Stable.throw _

theorem safeStringMethod_respects (receiver : boundary.stored thisArg) (name : String) (args : List (Expr ν)) :
    boundary.Respects (fun found => ∀ value, found = some value → boundary.held value)
      (safeStringMethod interpreter evaluate thisArg name args) := by
  cases thisArg with
  | string text =>
    refine Stable.ite (fun _ => ?_) fun _ => Stable.ite (fun _ => ?_) fun _ => ?_
    · refine Stable.bind (lawful.arguments_respect below args) fun values stored => ?_
      refine Stable.bind (Stable.emit fun _ => lawful.safe_claim _ (by simp)) fun _ _ => ?_
      have count : boundary.stored (values.head?.getD .undefined) := by
        cases values with
        | nil => exact lawful.primitive_stored _ rfl
        | cons first rest => exact stored first List.mem_cons_self
      refine Stable.bind (lawful.repeatText_respects text count) fun result held => ?_
      exact Stable.pure (by simpa using held)
    · refine Stable.bind (lawful.arguments_respect below args) fun values stored => ?_
      refine Stable.bind (Stable.emit fun _ => lawful.safe_claim _ (by simp)) fun _ _ => ?_
      exact Stable.pure (by simpa using lawful.primitive_held _ rfl)
    · refine Stable.bind (lawful.inheritedMethod_respects name) fun inherited found => ?_
      refine Stable.ite (fun truthy => ?_) fun _ => Stable.pure (by simp)
      refine Stable.bind (lawful.arguments_respect below args) fun values stored => ?_
      cases inherited with
      | object function =>
        refine Stable.bind (reject_respects _ _) fun _ _ => ?_
        refine Stable.bind (lawful.callHost_respects (fun _ => found.1) (found.2 truthy)
          (lawful.primitive_stored _ rfl) (by simpa using ⟨receiver, stored⟩)) fun result held => ?_
        exact Stable.pure (by simpa using held)
      | _ => exact Stable.throw _
  | _ => exact Stable.pure (by simp)

theorem callValue_respects {kind : CallKind} {func : Value ν} (stored : boundary.stored func)
    (callee : ∀ function, func = .object function → function.callable →
      boundary.Callee interpreter.host function kind) (receiver : boundary.stored thisArg) (args : List (Expr ν)) :
    boundary.Respects boundary.held (callValue interpreter evaluate kind func thisArg args) := by
  cases func with
  | object function =>
    refine Stable.bind (Stable.reject _ _) fun _ callable => ?_
    refine Stable.bind (lawful.arguments_respect below args) fun values areStored => ?_
    exact lawful.applyFunction_respects stored (callee function rfl (by simpa using callable)) receiver areStored
  | _ => exact Stable.throw _

theorem visitIdentifierCall_respects (name : String) (args : List (Expr ν)) :
    boundary.Respects boundary.held (visitIdentifierCall interpreter evaluate name args) := by
  have undefinedStored : boundary.stored (.undefined : Value ν) := lawful.primitive_stored _ rfl
  unfold visitIdentifierCall
  split
  · rename_i function found
    have held := lawful.function_held name function found
    exact lawful.callValue_respects below (lawful.held_stored _ held)
      (by rintro other ⟨⟩ callable; exact ⟨held, callable⟩) undefinedStored args
  · refine Stable.bind (variable_respects name) fun found held => ?_
    cases found with
    | some value =>
      exact lawful.callValue_respects below (lawful.held_stored _ (held value rfl))
        (by rintro other rfl callable; exact ⟨held _ rfl, callable⟩) undefinedStored args
    | none => exact Stable.throw _

theorem visitReceiverCall_respects (object : Expr ν) (name : String) (args : List (Expr ν)) :
    boundary.Respects boundary.held (visitReceiverCall interpreter evaluate object name args) := by
  refine Stable.bind (below object) fun thisArg isHeld => ?_
  have receiver := lawful.held_stored thisArg isHeld
  refine Stable.bind (lawful.safeStringMethod_respects below receiver name args) fun found held => ?_
  cases found with
  | some result => exact Stable.pure (held result rfl)
  | none =>
    refine Stable.bind (Stable.reject _ _) fun _ allowed => ?_
    have method : boundary.Respects boundary.stored (lookupMethod interpreter thisArg name) :=
      Stable.ite (fun _ => lawful.getProperty_respects name receiver)
        fun _ => Stable.pure (lawful.primitive_stored _ rfl)
    refine Stable.bind method fun func stored => ?_
    exact lawful.callValue_respects below stored (fun _ _ _ => by simpa [Callee] using allowed) receiver args

theorem visitMethodCall_respects (object property : Expr ν) (computed : Bool) (args : List (Expr ν)) :
    boundary.Respects boundary.held (visitMethodCall interpreter evaluate object property computed args) := by
  refine Stable.bind (validateMemberExpression_respects property computed) fun _ _ => ?_
  refine Stable.bind (reject_respects _ _) fun _ _ => ?_
  refine Stable.bind (methodName_respects property) fun name _ => ?_
  split
  · refine Stable.bind (lawful.safeJsonMethod_respects below _ name args) fun found held => ?_
    cases found with
    | some result => exact Stable.pure (held result rfl)
    | none => exact lawful.visitReceiverCall_respects below _ name args
  · exact lawful.visitReceiverCall_respects below _ name args

theorem visitCallExpression_respects (callee : Expr ν) (args : List (Expr ν)) :
    boundary.Respects boundary.held (visitCallExpression interpreter evaluate callee args) := by
  refine Stable.bind (validateCallExpression_respects callee) fun _ _ => ?_
  split
  · exact lawful.visitIdentifierCall_respects below _ args
  · exact lawful.visitMethodCall_respects below _ _ _ args
  · exact Stable.throw _

theorem visitMemberExpression_respects (object property : Expr ν) (computed : Bool) :
    boundary.Respects boundary.held (visitMemberExpression interpreter evaluate object property computed) := by
  refine Stable.bind (validateMemberExpression_respects property computed) fun _ _ => ?_
  refine Stable.bind (reject_respects _ _) fun _ _ => ?_
  refine Stable.bind (below object) fun obj held => ?_
  refine Stable.bind (reject_respects _ _) fun _ _ => ?_
  refine Stable.bind (lawful.propertyName_respects computed _ property) fun name _ => ?_
  refine Stable.bind (lawful.getProperty_respects name (lawful.held_stored obj held)) fun value stored => ?_
  refine Stable.bind (Stable.emit (lawful.read_claim value stored)) fun _ allowed => ?_
  exact Stable.pure (lawful.read_held value stored allowed)

theorem visitProperty_respects {result : Addr} (target : boundary.stored (.object result))
    (property : Option (Expr ν) × Expr ν) :
    boundary.Respects (fun _ => True) (visitProperty interpreter evaluate result property) := by
  match property with
  | (none, argument) =>
    refine Stable.bind (below argument) fun spreadValue held => ?_
    cases spreadValue with
    | object source =>
      exact Stable.ite (fun _ => lawful.assign_respects target (lawful.held_stored _ held))
        fun _ => Stable.pure trivial
    | _ => exact Stable.pure trivial
  | (some key, value) =>
    have keyed : boundary.Respects (fun _ => True) (propertyKey key) := by
      unfold propertyKey
      split
      · exact Stable.pure trivial
      · exact Stable.pure trivial
      · exact Stable.ite (fun _ => Stable.pure trivial) fun _ => Stable.throw _
      · exact Stable.throw _
    refine Stable.bind keyed fun name _ => ?_
    refine Stable.bind (below value) fun evaluated held => ?_
    exact lawful.putProperty_respects name target (lawful.held_stored _ held)

theorem visitObjectExpression_respects (properties : List (Option (Expr ν) × Expr ν)) :
    boundary.Respects boundary.held (visitObjectExpression interpreter evaluate properties) := by
  refine Stable.bind lawful.newObject_respects fun result held => ?_
  have each := lawful.visitProperty_respects below (lawful.held_stored _ held)
  exact Stable.bind (Stable.mapList each properties) fun _ _ => Stable.pure held

theorem visitElement_respects (element : Option (Expr ν)) :
    boundary.Respects (fun items => ∀ item ∈ items, boundary.stored item)
      (visitElement interpreter evaluate element) := by
  unfold visitElement
  split
  · exact Stable.pure (by simpa using lawful.primitive_stored _ rfl)
  · rename_i argument
    refine Stable.bind (below argument) fun spreadValue held => ?_
    refine Stable.bind (lawful.arrayItems_respects (lawful.held_stored _ held)) fun items stored => ?_
    exact Stable.pure stored
  · rename_i element _
    refine Stable.bind (below element) fun value held => Stable.pure ?_
    simpa using lawful.held_stored value held

theorem visitArrayExpression_respects (elements : List (Option (Expr ν))) :
    boundary.Respects boundary.held (visitArrayExpression interpreter evaluate elements) := by
  refine Stable.bind (Stable.mapList (lawful.visitElement_respects below) elements) fun items stored => ?_
  refine Stable.bind (lawful.newArray_respects ?_) fun addr held => Stable.pure held
  intro item member
  obtain ⟨list, inList, inItem⟩ := List.mem_flatten.mp member
  exact stored list inList item inItem

theorem evaluateTemplateExpression_respects (expr : Expr ν) :
    boundary.Respects (fun _ => True) (evaluateTemplateExpression interpreter evaluate expr) := by
  refine Stable.ite (fun _ => Stable.pure trivial) fun _ => ?_
  exact Stable.bind (below expr) fun value held => lawful.toText_respects (lawful.held_stored value held)

theorem visitTemplateLiteral_respects (quasis : List TemplateElement) (expressions : List (Expr ν)) :
    boundary.Respects boundary.held (visitTemplateLiteral interpreter evaluate quasis expressions) :=
  Stable.bind (Stable.mapList (lawful.evaluateTemplateExpression_respects below) _)
    fun _ _ => Stable.pure (lawful.primitive_held _ rfl)

omit [JsNumber ν] below in
theorem numeric_respects (number : Option ν) : boundary.Respects boundary.held (numeric number) := by
  cases number with
  | some number => exact Stable.pure (lawful.primitive_held _ rfl)
  | none => exact Stable.throw _

theorem visitUnaryExpression_respects (operator : UnaryOperator) (argument : Expr ν) :
    boundary.Respects boundary.held (visitUnaryExpression interpreter evaluate operator argument) := by
  refine Stable.bind (below argument) fun arg held => ?_
  have toNumber := lawful.toPrimitive_respects false (lawful.held_stored arg held)
  cases operator with
  | minus => exact Stable.bind toNumber fun number _ => lawful.numeric_respects _
  | plus => exact Stable.bind toNumber fun number _ => lawful.numeric_respects _
  | other text => exact Stable.throw _
  | _ => exact Stable.pure (lawful.primitive_held _ rfl)

omit below in
theorem toPrimitives_respects (leftStored : boundary.stored left) (rightStored : boundary.stored right) :
    boundary.Respects (fun _ => True) (toPrimitives interpreter left right) :=
  Stable.bind (lawful.toPrimitive_respects false leftStored) fun _ _ =>
    Stable.bind (lawful.toPrimitive_respects false rightStored) fun _ _ => Stable.pure trivial

omit below in
theorem arithmetic_respects (operation : ν → ν → Option ν)
    (leftStored : boundary.stored left) (rightStored : boundary.stored right) :
    boundary.Respects boundary.held (arithmetic interpreter operation left right) :=
  Stable.bind (lawful.toPrimitives_respects leftStored rightStored) fun _ _ => lawful.numeric_respects _

omit below in
theorem compareValues_respects (texts : String → String → Bool) (numbers : ν → ν → Bool)
    (leftStored : boundary.stored left) (rightStored : boundary.stored right) :
    boundary.Respects boundary.held (compareValues interpreter texts numbers left right) := by
  refine Stable.bind (lawful.toPrimitives_respects leftStored rightStored) fun operands _ => ?_
  obtain ⟨first, second⟩ := operands
  dsimp only
  split
  · exact Stable.pure (lawful.primitive_held _ rfl)
  · exact Stable.pure (lawful.primitive_held _ rfl)

omit below in
theorem looselyEqual_respects (leftStored : boundary.stored left) (rightStored : boundary.stored right) :
    boundary.Respects (fun _ => True) (looselyEqual interpreter left right) := by
  unfold looselyEqual
  split
  · exact Stable.pure trivial
  · refine Stable.ite (fun _ => Stable.pure trivial) fun _ => ?_
    exact Stable.bind (lawful.toPrimitive_respects false leftStored) fun _ _ => Stable.pure trivial
  · refine Stable.ite (fun _ => Stable.pure trivial) fun _ => ?_
    exact Stable.bind (lawful.toPrimitive_respects false rightStored) fun _ _ => Stable.pure trivial
  · exact Stable.pure trivial

omit below in
theorem addition_respects (leftStored : boundary.stored left) (rightStored : boundary.stored right) :
    boundary.Respects boundary.held (binaryOperation interpreter .add left right) := by
  have isHeld (text : String) : boundary.held (.string text) := lawful.primitive_held _ rfl
  simp only [binaryOperation]
  split
  · exact Stable.bind (lawful.toText_respects rightStored) fun _ _ => Stable.pure (isHeld _)
  · exact Stable.bind (lawful.toText_respects leftStored) fun _ _ => Stable.pure (isHeld _)
  · refine Stable.bind (lawful.toPrimitives_respects leftStored rightStored) fun operands _ => ?_
    obtain ⟨first, second⟩ := operands
    dsimp only
    split
    · exact Stable.pure (lawful.primitive_held _ rfl)
    · exact Stable.pure (lawful.primitive_held _ rfl)
    · exact lawful.numeric_respects _

omit below in
theorem binaryOperation_respects (operator : BinaryOperator)
    (leftStored : boundary.stored left) (rightStored : boundary.stored right) :
    boundary.Respects boundary.held (binaryOperation interpreter operator left right) := by
  have numeric (operation : ν → ν → Option ν) :=
    lawful.arithmetic_respects operation leftStored rightStored
  have compared (texts : String → String → Bool) (numbers : ν → ν → Bool) :=
    lawful.compareValues_respects texts numbers leftStored rightStored
  have equal := lawful.looselyEqual_respects leftStored rightStored
  have isHeld (value : Bool) : boundary.held (.boolean value) := lawful.primitive_held _ rfl
  cases operator with
  | add => exact lawful.addition_respects leftStored rightStored
  | subtract => exact numeric _
  | multiply => exact numeric _
  | divide => exact numeric _
  | remainder => exact numeric _
  | power => exact numeric _
  | looseEqual => exact Stable.bind equal fun _ _ => Stable.pure (isHeld _)
  | looseNotEqual => exact Stable.bind equal fun _ _ => Stable.pure (isHeld _)
  | strictEqual => exact Stable.pure (isHeld _)
  | strictNotEqual => exact Stable.pure (isHeld _)
  | less => exact compared _ _
  | lessEqual => exact compared _ _
  | greater => exact compared _ _
  | greaterEqual => exact compared _ _
  | other text => exact Stable.throw _

theorem visitBinaryExpression_respects (operator : BinaryOperator) (left right : Expr ν) :
    boundary.Respects boundary.held (visitBinaryExpression interpreter evaluate operator left right) := by
  refine Stable.bind (below left) fun leftValue leftHeld => ?_
  refine Stable.bind (below right) fun rightValue rightHeld => ?_
  exact lawful.binaryOperation_respects operator (lawful.held_stored _ leftHeld) (lawful.held_stored _ rightHeld)

omit lawful in
theorem visitLogicalExpression_respects (operator : LogicalOperator) (left right : Expr ν) :
    boundary.Respects boundary.held (visitLogicalExpression evaluate operator left right) :=
  Stable.bind (below left) fun _ held => Stable.ite (fun _ => Stable.pure held) fun _ => below right

omit lawful in
theorem visitConditionalExpression_respects (test consequent alternate : Expr ν) :
    boundary.Respects boundary.held (visitConditionalExpression evaluate test consequent alternate) :=
  Stable.bind (below test) fun _ _ => Stable.ite (fun _ => below consequent) fun _ => below alternate

theorem visitAssignmentExpression_respects (operator : AssignmentOperator) (left right : Expr ν) :
    boundary.Respects boundary.held (visitAssignmentExpression interpreter evaluate operator left right) := by
  cases operator with
  | other text => exact Stable.throw _
  | assign =>
    cases left with
    | member object property computed =>
      refine Stable.bind (validateMemberExpression_respects property computed) fun _ _ => ?_
      refine Stable.bind (reject_respects _ _) fun _ _ => ?_
      refine Stable.bind (below object) fun obj objectHeld => ?_
      refine Stable.bind (reject_respects _ _) fun _ _ => ?_
      refine Stable.bind (lawful.propertyName_respects computed _ property) fun name _ => ?_
      refine Stable.bind (below right) fun value held => ?_
      refine Stable.bind (lawful.setProperty_respects name (lawful.held_stored _ objectHeld)
        (lawful.held_stored _ held)) fun _ _ => Stable.pure held
    | _ => exact Stable.throw _

theorem evaluateNode_respects (node : Expr ν) :
    boundary.Respects boundary.held (evaluateNode interpreter evaluate node) := by
  refine Stable.bind (validateNodeType_respects node.type) fun _ _ => ?_
  cases node with
  | call callee args => exact lawful.visitCallExpression_respects below callee args
  | member object property computed =>
    exact lawful.visitMemberExpression_respects below object property computed
  | object properties => exact lawful.visitObjectExpression_respects below properties
  | array elements => exact lawful.visitArrayExpression_respects below elements
  | identifier name => exact lawful.visitIdentifier_respects name
  | literal value => exact lawful.literalValue_respects value
  | template quasis expressions => exact lawful.visitTemplateLiteral_respects below quasis expressions
  | spread argument => exact below argument
  | unary operator argument => exact lawful.visitUnaryExpression_respects below operator argument
  | binary operator left right => exact lawful.visitBinaryExpression_respects below operator left right
  | logical operator left right => exact visitLogicalExpression_respects below operator left right
  | conditional test consequent alternate =>
    exact visitConditionalExpression_respects below test consequent alternate
  | assignment operator left right =>
    exact lawful.visitAssignmentExpression_respects below operator left right
  | other type => exact Stable.throw _

end Visits

section Programs

theorem evaluate_respects (remaining : ℕ) (node : Expr ν) :
    boundary.Respects boundary.held (evaluate interpreter remaining node) := by
  induction remaining generalizing node with
  | zero => exact Stable.throw _
  | succ remaining ih => exact lawful.evaluateNode_respects ih node

theorem visitDeclarator_respects (declarator : VariableDeclarator ν) :
    boundary.Respects (fun _ => True) (visitDeclarator interpreter declarator) := by
  have initial : boundary.Respects boundary.held (evaluateInit interpreter declarator.init) := by
    unfold evaluateInit
    split
    · exact Stable.pure (lawful.primitive_held _ rfl)
    · exact lawful.evaluate_respects _ _
  have declares (name : String) (value : Value ν) (held : boundary.held value) :
      boundary.Respects (fun _ => True) (declare name value) := by
    refine Stable.update fun s t related => ⟨by rw [related.1], related.2.1, ?_, related.2.2.2⟩
    intro other found get
    rw [OrderedMap.get_set] at get
    split at get
    · cases get
      exact held
    · exact related.2.2.1 other found get
  unfold visitDeclarator
  split
  · exact Stable.throw _
  · rename_i name _
    refine Stable.ite (fun _ => Stable.ite (fun _ => ?_) fun _ => Stable.throw _) fun _ => ?_
    · have reads : boundary.Respects (fun _ => True) (Comp.read fun s => generateSafeName name
          (s.declaredVariables.entries.map Prod.fst ++ interpreter.host.sdkFunctions.entries.map Prod.fst)) :=
        Stable.read fun s t related => ⟨by rw [related.1], trivial⟩
      refine Stable.bind reads fun safeName _ => ?_
      refine Stable.bind initial fun value held => ?_
      refine Stable.bind (Stable.update fun s t related => ?_) fun _ _ => declares safeName value held
      exact ⟨related.1, by rw [related.2.1], related.2.2.1, related.2.2.2⟩
    · exact Stable.bind initial fun value held => declares name value held

theorem visitVariableDeclaration_respects (kind : VariableKind) (declarations : List (VariableDeclarator ν)) :
    boundary.Respects (fun _ => True) (visitVariableDeclaration interpreter kind declarations) := by
  cases kind with
  | other text => exact Stable.throw _
  | const =>
    exact Stable.bind (Stable.mapList lawful.visitDeclarator_respects declarations) fun _ _ =>
      Stable.pure trivial

theorem interpretFrom_respects {result : Value ν} (held : boundary.held result) (program : Program ν) :
    boundary.Respects boundary.held (interpretFrom interpreter result program) := by
  induction program generalizing result with
  | nil => exact Stable.pure held
  | cons statement rest ih =>
    refine Stable.bind (validateNodeType_respects statement.type) fun _ _ => ?_
    cases statement with
    | variableDeclaration kind declarations =>
      exact Stable.bind (lawful.visitVariableDeclaration_respects kind declarations) fun _ _ => ih held
    | expressionStatement expression =>
      exact Stable.bind (lawful.evaluate_respects _ expression) fun value held => ih held
    | exportDefaultDeclaration declaration => exact lawful.evaluate_respects _ declaration
    | other type => exact Stable.throw _

theorem interpretSDKCode_respects {run : ℕ} {heap other : Heap ν} (program : Program ν)
    (related : boundary.heaps (startState run heap).heap (startState run other).heap)
    (acceptable : ∀ event ∈ (interpretSDKCode interpreter run heap program).events, boundary.ok event) :
    let here := interpretSDKCode interpreter run heap program
    let there := interpretSDKCode interpreter run other program
    there.result = here.result ∧ there.events = here.events ∧
      boundary.heaps here.state.heap there.state.heap ∧ (∀ event ∈ here.events, boundary.claim event) ∧
      ∀ value, here.result = .ok value → boundary.held value := by
  have start : boundary.setting.rel (startState run heap) (startState run other) :=
    ⟨rfl, rfl, by simp [startState], related⟩
  obtain ⟨result, events, states, claims, held⟩ :=
    lawful.interpretFrom_respects (lawful.primitive_held .undefined rfl) program _ _ start acceptable
  exact ⟨result, events, states.2.2.2, claims, held⟩

end Programs

end N8n.Sdk.Boundary.Lawful
