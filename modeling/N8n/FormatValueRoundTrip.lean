import N8n.FormatValueHeap

/-! What the text of a value is turned into. The value comes back if and only if the
builders give its strings back and the interpreter can nest deeply enough, as long as the
text is left in one piece. -/

namespace N8n.FormatValue

open Traced Sdk JsTokens JsFragment PreprocessCode List
open Option hiding max_eq_left

section ReadBack

/-- What the builders make of the text that is written for a string. -/
def readBack (value : List Char) : List Char :=
  if isPlaceholderValue value then placeholder (extractPlaceholderHint value)
  else if value.head? = some '=' then expr value.tail
  else value

/-- The markers of a placeholder are apart with the hint on one line between them, and no
string starts with two equals signs. -/
def Readable (value : List Char) : Prop :=
  (isPlaceholderValue value → ∃ hint, value = placeholder hint ∧ hint.any isLineTerminator = false) ∧
    ¬['=', '='] <+: value

theorem drop_between (start hint : List Char) (one two three : Char) :
    ((start ++ hint ++ [one, two, three]).drop start.length).dropLast.dropLast.dropLast = hint := by
  simp

theorem extractPlaceholderHint_placeholder {hint : List Char} (line : hint.any isLineTerminator = false) :
    extractPlaceholderHint (placeholder hint) = hint := by
  have finish : placeholderEnd = ['_', '_', '>'] := by simp [placeholderEnd]
  have shape : placeholder hint = placeholderStart ++ hint ++ placeholderEnd := rfl
  have dropped : ((placeholder hint).drop placeholderStart.length).dropLast.dropLast.dropLast = hint := by
    rw [shape, finish]
    exact drop_between placeholderStart hint '_' '_' '>'
  simp only [extractPlaceholderHint, dropped, line, and_true]
  rw [if_pos shape]

theorem extractPlaceholderHint_line (value : List Char) :
    (extractPlaceholderHint value).any isLineTerminator = false := by
  simp only [extractPlaceholderHint]
  split
  · exact (by assumption : _ ∧ _).2
  · rfl

theorem readBack_eq_iff (value : List Char) : readBack value = value ↔ Readable value := by
  unfold readBack Readable
  split_ifs with isPlaceholder startsEqual
  · have noEqual : ¬['=', '='] <+: value := by
      simp only [isPlaceholderValue, Bool.and_eq_true, isPrefixOf_iff_prefix] at isPlaceholder
      obtain ⟨rest, split⟩ := isPlaceholder.1
      have starts : placeholderStart = '<' :: placeholderStart.tail := by decide
      rw [← split, starts, cons_append, cons_prefix_cons]
      exact fun equal => absurd equal.1 (by decide)
    simp only [isPlaceholder, true_imp_iff, noEqual, not_false_eq_true, and_true]
    constructor
    · intro same
      exact ⟨_, same.symm, extractPlaceholderHint_line value⟩
    · rintro ⟨hint, rfl, line⟩
      rw [extractPlaceholderHint_placeholder line]
  · obtain ⟨rest, rfl⟩ : ∃ rest, value = '=' :: rest := head?_eq_some_iff.mp startsEqual
    simp only [isPlaceholder, Bool.false_eq_true, false_imp_iff, true_and, tail_cons, expr]
    cases rest with
    | nil => simp
    | cons char rest =>
      by_cases equal : char = '='
      · subst equal
        simp
      · simp [equal, Ne.symm equal]
  · have noEqual : ¬['=', '='] <+: value := by
      rintro ⟨rest, rfl⟩
      simp at startsEqual
    simp [isPlaceholder, noEqual]

end ReadBack

section Values

variable {ν : Type} {bound : ℕ}

mutual

def Json.readBack : Json ν → Json ν
  | .string value => .string (String.ofList (FormatValue.readBack value.toList))
  | .array items => .array (readBackItems items)
  | .object entries => .object (readBackEntries entries)
  | value => value

def readBackItems : List (Json ν) → List (Json ν)
  | [] => []
  | item :: items => item.readBack :: readBackItems items

def readBackEntries : List (String × Json ν) → List (String × Json ν)
  | [] => []
  | (key, value) :: entries => (key, value.readBack) :: readBackEntries entries

end

theorem readBackItems_eq (items : List (Json ν)) : readBackItems items = items.map Json.readBack := by
  induction items with
  | nil => rfl
  | cons item items ih => rw [readBackItems, ih, map_cons]

theorem readBackEntries_eq (entries : List (String × Json ν)) :
    readBackEntries entries = entries.map fun entry => (entry.1, entry.2.readBack) := by
  induction entries with
  | nil => rfl
  | cons entry entries ih => rw [readBackEntries, ih, map_cons]

def Json.NodeReadable : Json ν → Prop
  | .string value => FormatValue.Readable value.toList
  | _ => True

def Json.Readable (value : Json ν) : Prop := ∀ part ∈ value.parts, part.NodeReadable

theorem readBack_of_readable {value : Json ν} (readable : value.Readable) : value.readBack = value := by
  induction value with
  | null => rfl
  | boolean value => rfl
  | number value => rfl
  | string value =>
    have same := (readBack_eq_iff _).mpr (readable (.string value) (by simp [Json.parts]))
    rw [Json.readBack, same, String.ofList_toList]
  | array items ih =>
    obtain ⟨_, each⟩ := forall_parts_array.mp readable
    rw [Json.readBack, readBackItems_eq]
    have same : items.map Json.readBack = items.map id := map_congr_left fun item member =>
      ih item member (each item member)
    rw [same, List.map_id]
  | object entries ih =>
    obtain ⟨_, each⟩ := forall_parts_object.mp readable
    rw [Json.readBack, readBackEntries_eq]
    have same : (entries.map fun entry => (entry.1, entry.2.readBack)) = entries.map id :=
      map_congr_left fun entry member => by rw [ih entry member (each entry member), id]
    rw [same, List.map_id]

mutual

variable [JsNumber ν]

/-- How deeply evaluations are nested for the literal of the value. -/
def Json.depth : Json ν → ℕ
  | .null => 1
  | .boolean _ => 1
  | .number value => if (JsNumber.toText value).toList.head? = some '-' then 2 else 1
  | .string value => if isPlaceholderValue value.toList ∨ value.toList.head? = some '=' then 2 else 1
  | .array items => depthOfItems items + 1
  | .object entries => depthOfEntries entries + 1

def depthOfItems : List (Json ν) → ℕ
  | [] => 0
  | item :: items => max item.depth (depthOfItems items)

def depthOfEntries : List (String × Json ν) → ℕ
  | [] => 0
  | (_, value) :: entries => max value.depth (depthOfEntries entries)

end

theorem depthOfItems_le {items : List (Json ν)} [JsNumber ν] :
    depthOfItems items ≤ bound ↔ ∀ item ∈ items, item.depth ≤ bound := by
  induction items with
  | nil => simp [depthOfItems]
  | cons item items ih => rw [depthOfItems, max_le_iff, ih, forall_mem_cons]

theorem depthOfEntries_le {entries : List (String × Json ν)} [JsNumber ν] :
    depthOfEntries entries ≤ bound ↔ ∀ entry ∈ entries, entry.2.depth ≤ bound := by
  induction entries with
  | nil => simp [depthOfEntries]
  | cons entry entries ih => rw [depthOfEntries, max_le_iff, ih, forall_mem_cons]

end Values

section Builders

variable {ν : Type} {host : Host ν}

/-- The host provides the function of strings under the name; its property `apply` is the
built-in one and it is older than the run. -/
def Computes (host : Host ν) (heap : Heap ν) (name : String) (function : List Char → List Char) : Prop :=
  ∃ addr, host.sdkFunctions.get name = some addr ∧ addr.callable = true ∧
    (∀ holder ∈ chainIn heap addr, holder.run ≠ heap.run) ∧
    (∃ holder writable enumerable, slotIn heap "apply" (chainIn heap addr) =
      some (holder, ⟨.data (.object host.functionApply) writable, enumerable⟩)) ∧
    ∀ text later, host.call addr .undefined [.string (String.ofList text)] later =
      ⟨.ok (.string (String.ofList (function text))), later, []⟩

/-- What is relied on of the heap and the two functions that generated values call. -/
structure Ready (host : Host ν) (heap : Heap ν) : Prop where
  assignable : Assignable host heap
  expr : Computes host heap "expr" FormatValue.expr
  placeholder : Computes host heap "placeholder" FormatValue.placeholder

theorem Computes.grows {heap after : Heap ν} {name : String}
    {function : List Char → List Char} (computes : Computes host heap name function) (grows : Grows heap after) :
    Computes host after name function := by
  obtain ⟨addr, provided, callable, older, ⟨holder, writable, enumerable, found⟩, call⟩ := computes
  have same : ∀ holder ∈ chainIn heap addr, after.objects holder = heap.objects holder := fun holder member =>
    grows.objects holder fun new => older holder member new.1
  have sameChain : chainIn after addr = chainIn heap addr := by
    simp only [chainIn, same addr mem_cons_self]
  refine ⟨addr, provided, callable, ?_, ⟨holder, writable, enumerable, ?_⟩, call⟩
  · rw [sameChain, grows.run_eq]
    exact older
  · rw [sameChain, slotIn_congr same, found]

theorem Ready.grows {heap after : Heap ν} (ready : Ready host heap) (grows : Grows heap after) : Ready host after :=
  ⟨ready.assignable.grows grows, ready.expr.grows grows, ready.placeholder.grows grows⟩

end Builders

section Evaluation

variable {ν : Type} [JsNumber ν] {interpreter : Interpreter ν} {remaining : ℕ} {s : State ν} {value : Value ν}
  {items : List (Json ν)} {addr : Addr} {start : Heap ν}

omit [JsNumber ν] in
theorem validateNodeType_yields {type : String} (free : FORBIDDEN_NODE_TYPES.lookup type = none)
    (allowed : type ∈ ALLOWED_NODE_TYPES) (s : State ν) : Yields (validateNodeType type : Eval ν Unit) s () s := by
  rw [validateNodeType, free, if_pos allowed]
  exact .pure () s

def Gives (interpreter : Interpreter ν) (remaining : ℕ) (node : Expr ν) (value : Value ν) (s : State ν) :
    Prop :=
  Yields (evaluate interpreter remaining node) s value s

theorem gives_literal {literal : Literal ν} (same : literalValue interpreter literal = pure value) (s : State ν) :
    Gives interpreter (remaining + 1) (.literal literal) value s := by
  have entered : evaluate interpreter (remaining + 1) (.literal literal) =
      (validateNodeType "Literal" >>= fun _ => literalValue interpreter literal) := rfl
  rw [Gives, entered, same]
  exact Yields.bind (validateNodeType_yields (by decide) (by decide) s) (.pure value s)

theorem gives_call {name : String} {function : List Char → List Char}
    (computes : Computes interpreter.host s.heap name function)
    (validates : (validateCallExpression (.identifier name) : Eval ν Unit) = pure ()) (text : List Char) :
    Gives interpreter (remaining + 2) (.call (.identifier name) [.literal (.string (String.ofList text))])
      (.string (String.ofList (function text))) s := by
  obtain ⟨addr, provided, callable, _, ⟨holder, writable, enumerable, found⟩, call⟩ := computes
  have entered (arguments : List (Expr ν)) : evaluate interpreter (remaining + 2) (.call (.identifier name) arguments) =
        (validateNodeType "CallExpression" >>= fun _ => validateCallExpression (.identifier name) >>= fun _ =>
          visitIdentifierCall interpreter (evaluate interpreter (remaining + 1)) name arguments) := rfl
  rw [Gives, entered, validates]
  refine Yields.bind (validateNodeType_yields (by decide) (by decide) s) (Yields.bind (.pure () s) ?_)
  simp only [visitIdentifierCall, provided, callValue]
  refine Yields.bind (.reject _ (by simp [callable]) s) ?_
  refine Yields.bind (Yields.mapList_cons (gives_literal rfl s) (.pure [] s)) ?_
  refine Yields.bind (chainOf_yields _ addr s) (Yields.bind (lookup_yields "apply" _ s) ?_)
  simp only [found, if_true]
  refine Yields.bind (.emit _ s) ?_
  have outcome := call text s.heap
  exact ⟨by rw [runHost, outcome]; rfl, by rw [runHost, outcome]⟩

theorem gives_stringLiteral (ready : Ready interpreter.host s.heap) {value : List Char}
    (enough : (if isPlaceholderValue value ∨ value.head? = some '=' then 2 else 1) ≤ remaining) :
    Gives interpreter remaining (stringLiteral value) (.string (String.ofList (readBack value))) s := by
  unfold stringLiteral readBack
  split_ifs with isPlaceholder startsEqual
  · rw [if_pos (.inl isPlaceholder)] at enough
    obtain ⟨below, rfl⟩ := Nat.exists_eq_add_of_le' enough
    exact gives_call ready.placeholder rfl _
  · rw [if_pos (.inr startsEqual)] at enough
    obtain ⟨below, rfl⟩ := Nat.exists_eq_add_of_le' enough
    exact gives_call ready.expr rfl _
  · rw [if_neg (by simp [isPlaceholder, startsEqual])] at enough
    obtain ⟨below, rfl⟩ := Nat.exists_eq_add_of_le' enough
    exact gives_literal rfl s

variable (interpreter) in
theorem gives_numberLiteral {number : ν} (prints : PrintsDecimal number)
    (enough : (if (JsNumber.toText number).toList.head? = some '-' then 2 else 1) ≤ remaining) (s : State ν) :
    ∃ result, Gives interpreter remaining (numberLiteral (JsNumber.toText number).toList) (.number result) s ∧
      JsNumber.equal result number = true := by
  obtain ⟨text, literal, ⟨same, equal⟩ | ⟨same, negative, minus, equal⟩⟩ := prints
  · have starts := (decimalText_of_literal literal).starts
    have noMinus : text.head? ≠ some '-' := by
      intro head
      rw [head] at starts
      exact absurd starts (by decide)
    rw [same, if_neg noMinus] at enough
    obtain ⟨below, rfl⟩ := Nat.exists_eq_add_of_le' enough
    refine ⟨_, ?_, equal⟩
    rw [same]
    unfold numberLiteral
    split
    · exact absurd rfl noMinus
    · exact gives_literal rfl s
  · rw [same, head?_cons, if_pos rfl] at enough
    obtain ⟨below, rfl⟩ := Nat.exists_eq_add_of_le' enough
    refine ⟨negative, ?_, equal⟩
    rw [same, numberLiteral]
    have entered (argument : Expr ν) : evaluate interpreter (below + 2) (.unary .minus argument) =
        (validateNodeType "UnaryExpression" >>= fun _ => evaluate interpreter (below + 1) argument >>= fun arg =>
          toPrimitive interpreter.host false arg >>= fun number =>
            numeric (JsNumber.minus number.primitiveNumber)) := rfl
    rw [Gives, entered]
    refine Yields.bind (validateNodeType_yields (by decide) (by decide) s) ?_
    refine Yields.bind (gives_literal rfl s) (Yields.bind (.pure _ s) ?_)
    simp only [Value.primitiveNumber, minus]
    exact .pure _ s

def Builds (interpreter : Interpreter ν) (remaining : ℕ) (json : Json ν) (s : State ν) (value : Value ν)
    (heap : Heap ν) : Prop :=
  Yields (evaluate interpreter remaining (literalOf json)) s value { s with heap } ∧ Grows s.heap heap ∧
    Represents interpreter.host heap.objects (Created s.heap heap) json.readBack value

theorem Gives.builds {json : Json ν} (gives : Gives interpreter remaining (literalOf json) value s)
    (represents : Represents interpreter.host s.heap.objects (Created s.heap s.heap) json.readBack value) :
    ∃ value heap, Builds interpreter remaining json s value heap :=
  ⟨value, s.heap, gives, .refl s.heap, represents⟩

theorem visitElement_literalOf (evaluate : Expr ν → Eval ν (Value ν)) (item : Json ν) :
    visitElement interpreter evaluate (some (literalOf item)) =
      (evaluate (literalOf item) >>= fun value => pure [value]) := by
  cases item with
  | number value =>
    simp only [literalOf]
    unfold numberLiteral
    split <;> rfl
  | string value =>
    simp only [literalOf]
    unfold stringLiteral
    split_ifs <;> rfl
  | _ => rfl

theorem items_yield (each : ∀ item ∈ items, ∀ s, Ready interpreter.host s.heap →
      ∃ value heap, Builds interpreter remaining item s value heap) (ready : Ready interpreter.host s.heap) :
    ∃ values heap, Yields (Comp.mapList (visitElement interpreter (evaluate interpreter remaining))
        (itemLiterals items)) s (values.map fun value => [value]) { s with heap } ∧ Grows s.heap heap ∧
      Forall₂ (fun item value =>
        Represents interpreter.host heap.objects (Created s.heap heap) item.readBack value) items values := by
  induction items generalizing s with
  | nil => exact ⟨[], s.heap, .pure [] s, .refl s.heap, .nil⟩
  | cons item items ih =>
    simp only [forall_mem_cons] at each
    obtain ⟨value, heap, yields, grows, represents⟩ := each.1 s ready
    obtain ⟨values, after, yieldsRest, growsRest, representRest⟩ :=
      ih each.2 (s := { s with heap }) (ready.grows grows)
    refine ⟨value :: values, after, ?_, grows.trans growsRest, .cons ?_ ?_⟩
    · refine Yields.mapList_cons (t := { s with heap }) ?_ yieldsRest
      rw [visitElement_literalOf]
      exact yields.bind (.pure _ _)
    · exact represents_later represents growsRest
    · refine representRest.imp fun item value represents => ?_
      refine represents_mono (fun addr created => ⟨?_, rfl⟩) represents
      exact ⟨created.1.trans grows.run_eq, grows.next_le.trans created.2.1, created.2.2⟩

theorem representsItems_slotsFrom {host : Host ν} {objects : Addr → Option (Obj ν)} {own : Addr → Prop}
    {values : List (Value ν)}
    (represent : Forall₂ (fun item value => Represents host objects own item.readBack value) items values) (index : ℕ) :
    RepresentsItems host objects own index (readBackItems items) (slotsFrom index values) := by
  induction represent generalizing index with
  | nil => rfl
  | cons first _ ih => exact ⟨_, _, rfl, first, ih (index + 1)⟩

theorem array_builds (counts : CountsExactly ν) (small : items.length < 2 ^ 32)
    (each : ∀ item ∈ items, ∀ s, Ready interpreter.host s.heap →
      ∃ value heap, Builds interpreter remaining item s value heap) (ready : Ready interpreter.host s.heap) :
    ∃ value heap, Builds interpreter (remaining + 1) (.array items) s value heap := by
  obtain ⟨values, heap, yields, grows, represent⟩ := items_yield each ready
  have length : items.length = values.length := represent.length_eq
  obtain ⟨object, array, allocates⟩ :=
    newArray_yields counts interpreter.host values (by omega) { s with heap }
  refine ⟨.object heap.freshAddr, heap.allocate object, ?_, grows.trans (grows_allocate heap object), ?_⟩
  · have entered : evaluate interpreter (remaining + 1) (literalOf (.array items)) =
        (validateNodeType "ArrayExpression" >>= fun _ =>
          visitArrayExpression interpreter (evaluate interpreter remaining) (itemLiterals items)) := rfl
    rw [entered]
    refine Yields.bind (validateNodeType_yields (by decide) (by decide) s) (yields.bind ?_)
    rw [← flatMap_def, flatMap_singleton']
    exact allocates.bind (.pure _ _)
  · refine ⟨heap.freshAddr, object, rfl, ⟨grows.run_eq, grows.next_le, Nat.lt_succ_self _⟩,
      by simp [Heap.allocate, Heap.store], array.isArray, array.prototypes_eq, slotsFrom 0 values, ?_, ?_⟩
    · rw [array.entries, readBackItems_eq, length_map, length]
      rfl
    · refine representsItems_slotsFrom (represent.imp fun item value represents => ?_) 0
      exact represents_later represents (grows_allocate heap object)

theorem propertyKey_keyLiteral (key : String) : (propertyKey (keyLiteral key) : Eval ν String) = pure key := by
  unfold keyLiteral
  split <;> rfl

theorem member_yields {done : List (String × Json ν)} {entry : String × Json ν}
    (building : Building interpreter.host start addr done s.heap) (ready : Ready interpreter.host start)
    (absent : entry.1 ∉ done.map Prod.fst) (notProto : entry.1 ≠ "__proto__")
    (builds : ∃ value heap, Builds interpreter remaining entry.2 s value heap) :
    ∃ heap, Yields (visitProperty interpreter (evaluate interpreter remaining) addr
        (some (keyLiteral entry.1), literalOf entry.2)) s () { s with heap } ∧
      Building interpreter.host start addr (done ++ [(entry.1, entry.2.readBack)]) heap := by
  obtain ⟨value, later, yields, grows, represents⟩ := builds
  obtain ⟨object, found, plain, prototypes, free, next⟩ := building.put grows represents absent
  have assignable := ready.assignable.grows (building.grows.trans grows)
  have own : addr.run = later.run := building.created.1.trans (building.grows.trans grows).run_eq.symm
  refine ⟨later.store addr (withProperty object entry.1 value), ?_, next⟩
  rw [visitProperty, propertyKey_keyLiteral]
  refine Yields.bind (.pure _ s) (yields.bind ?_)
  exact putProperty_yields (s := { s with heap := later }) assignable own found plain prototypes free notProto value

theorem members_yield {entries done : List (String × Json ν)}
    (building : Building interpreter.host start addr done s.heap) (ready : Ready interpreter.host start)
    (distinct : ((done ++ entries).map Prod.fst).Nodup) (notProto : ∀ entry ∈ entries, entry.1 ≠ "__proto__")
    (each : ∀ entry ∈ entries, ∀ s, Ready interpreter.host s.heap →
      ∃ value heap, Builds interpreter remaining entry.2 s value heap) :
    ∃ units heap, Yields (Comp.mapList (visitProperty interpreter (evaluate interpreter remaining) addr)
        (memberLiterals entries)) s units { s with heap } ∧
      Building interpreter.host start addr (done ++ readBackEntries entries) heap := by
  induction entries generalizing s done with
  | nil => exact ⟨[], s.heap, .pure [] s, by simpa [readBackEntries] using building⟩
  | cons entry entries ih =>
    simp only [forall_mem_cons] at each notProto
    have absent : entry.1 ∉ done.map Prod.fst := by
      intro member
      rw [map_append, nodup_append] at distinct
      exact distinct.2.2 _ member _ (by simp) rfl
    obtain ⟨heap, yields, next⟩ := member_yields building ready absent notProto.1
      (each.1 s (ready.grows building.grows))
    have distinctRest : ((done ++ [(entry.1, entry.2.readBack)] ++ entries).map Prod.fst).Nodup := by
      simpa using distinct
    obtain ⟨units, after, yieldsRest, last⟩ := ih (s := { s with heap }) next distinctRest notProto.2 each.2
    refine ⟨() :: units, after, Yields.mapList_cons (t := { s with heap }) yields yieldsRest, ?_⟩
    simpa [readBackEntries] using last

theorem object_entered (entries : List (String × Json ν)) :
    evaluate interpreter (remaining + 1) (literalOf (.object entries)) =
      (validateNodeType "ObjectExpression" >>= fun _ =>
        visitObjectExpression interpreter (evaluate interpreter remaining) (memberLiterals entries)) := rfl

omit [JsNumber ν] in
theorem newObject_yields (host : Host ν) (s : State ν) : Yields (newObject host) s s.heap.freshAddr
    { s with heap := s.heap.allocate ⟨[host.objectPrototype], false, .empty⟩ } :=
  Yields.bind (.read _ s) (Yields.bind (.update _ s) (.pure _ _))

theorem object_builds {entries : List (String × Json ν)} (distinct : (entries.map Prod.fst).Nodup)
    (notProto : ∀ entry ∈ entries, entry.1 ≠ "__proto__")
    (each : ∀ entry ∈ entries, ∀ s, Ready interpreter.host s.heap →
      ∃ value heap, Builds interpreter remaining entry.2 s value heap) (ready : Ready interpreter.host s.heap) :
    ∃ value heap, Builds interpreter (remaining + 1) (.object entries) s value heap := by
  obtain ⟨units, heap, yields, building⟩ := members_yield
    (s := { s with heap := s.heap.allocate ⟨[interpreter.host.objectPrototype], false, .empty⟩ })
    (building_new interpreter.host s.heap) ready distinct notProto each
  refine ⟨.object s.heap.freshAddr, heap, ?_, building.grows, building.represents_object⟩
  rw [object_entered]
  refine Yields.bind (validateNodeType_yields (by decide) (by decide) s) ?_
  exact (newObject_yields interpreter.host s).bind (yields.bind (.pure _ _))

theorem literalOf_builds (counts : CountsExactly ν) {value : Json ν} (steady : value.Steady)
    (valid : value.Valid) (enough : value.depth ≤ remaining) (ready : Ready interpreter.host s.heap) :
    ∃ result heap, Builds interpreter remaining value s result heap := by
  induction value generalizing remaining s with
  | null =>
    obtain ⟨below, rfl⟩ := Nat.exists_eq_add_of_le' enough
    exact (gives_literal rfl s).builds rfl
  | boolean value =>
    obtain ⟨below, rfl⟩ := Nat.exists_eq_add_of_le' enough
    exact (gives_literal rfl s).builds rfl
  | number value =>
    obtain ⟨result, gives, equal⟩ :=
      gives_numberLiteral interpreter (valid (.number value) (by simp [Json.parts])) enough s
    exact gives.builds ⟨result, rfl, equal⟩
  | string value => exact (gives_stringLiteral ready enough).builds rfl
  | array items ih =>
    obtain ⟨_, itemsSteady⟩ := forall_parts_array.mp steady
    obtain ⟨small, itemsValid⟩ := forall_parts_array.mp valid
    obtain ⟨below, rfl⟩ : ∃ below, remaining = below + 1 := ⟨remaining - 1, by rw [Json.depth] at enough; omega⟩
    have shallow := depthOfItems_le.mp (Nat.le_of_succ_le_succ enough)
    refine array_builds counts small (fun item member s ready => ?_) ready
    exact ih item member (itemsSteady item member) (itemsValid item member) (shallow item member) ready
  | object entries ih =>
    obtain ⟨keys, entriesSteady⟩ := forall_parts_object.mp steady
    obtain ⟨distinct, entriesValid⟩ := forall_parts_object.mp valid
    obtain ⟨below, rfl⟩ : ∃ below, remaining = below + 1 := ⟨remaining - 1, by rw [Json.depth] at enough; omega⟩
    have shallow := depthOfEntries_le.mp (Nat.le_of_succ_le_succ enough)
    refine object_builds distinct (fun entry member => (keys entry member).ne_proto) (fun entry member s ready => ?_)
      ready
    exact ih entry member (entriesSteady entry member) (entriesValid entry member) (shallow entry member) ready

end Evaluation

section Depth

variable {ν : Type} [JsNumber ν] {interpreter : Interpreter ν} {remaining : ℕ} {s : State ν}

theorem call_fails {name : String} {function : List Char → List Char} {heap : Heap ν}
    (computes : Computes interpreter.host heap name function)
    (validates : (validateCallExpression (.identifier name) : Eval ν Unit) = pure ()) (argument : Expr ν)
    (s : State ν) : Fails (evaluate interpreter 1 (.call (.identifier name) [argument])) s := by
  obtain ⟨addr, provided, callable, _⟩ := computes
  have entered : evaluate interpreter 1 (.call (.identifier name) [argument]) =
        (validateNodeType "CallExpression" >>= fun _ => validateCallExpression (.identifier name) >>= fun _ =>
          visitIdentifierCall interpreter (evaluate interpreter 0) name [argument]) := rfl
  rw [entered, validates]
  refine Fails.bind_next (validateNodeType_yields (by decide) (by decide) s) (Fails.bind_next (.pure () s) ?_)
  simp only [visitIdentifierCall, provided, callValue]
  refine Fails.bind_next (.reject _ (by simp [callable]) s) (Fails.bind (Fails.bind ?_ _) _)
  exact .throw _ s

theorem unary_fails (argument : Expr ν) (s : State ν) : Fails (evaluate interpreter 1 (.unary .minus argument)) s := by
  have entered : evaluate interpreter 1 (.unary .minus argument) = (validateNodeType "UnaryExpression" >>= fun _ =>
        visitUnaryExpression interpreter (evaluate interpreter 0) .minus argument) := rfl
  rw [entered]
  exact Fails.bind_next (validateNodeType_yields (by decide) (by decide) s) (Fails.bind (.throw _ s) _)

theorem items_fail {items : List (Json ν)}
    (each : ∀ item ∈ items, ∀ s, Ready interpreter.host s.heap → item.depth ≤ remaining →
      ∃ value heap, Builds interpreter remaining item s value heap)
    (deep : ∀ item ∈ items, ∀ s, Ready interpreter.host s.heap → remaining < item.depth →
      Fails (evaluate interpreter remaining (literalOf item)) s)
    (some_deep : remaining < depthOfItems items) (ready : Ready interpreter.host s.heap) :
    Fails (Comp.mapList (visitElement interpreter (evaluate interpreter remaining)) (itemLiterals items)) s := by
  induction items generalizing s with
  | nil => exact absurd some_deep (Nat.not_lt_zero _)
  | cons item items ih =>
    simp only [forall_mem_cons] at each deep
    by_cases shallow : item.depth ≤ remaining
    · obtain ⟨value, heap, yields, grows, _⟩ := each.1 s ready shallow
      have later : remaining < depthOfItems items := by
        rw [depthOfItems] at some_deep
        omega
      have visited : Yields (visitElement interpreter (evaluate interpreter remaining) (some (literalOf item))) s
          [value] { s with heap } := by
        rw [visitElement_literalOf]
        exact yields.bind (.pure _ _)
      exact Fails.bind_next visited (Fails.bind (ih each.2 deep.2 later (ready.grows grows)) _)
    · refine Fails.bind ?_ _
      rw [visitElement_literalOf]
      exact Fails.bind (deep.1 s ready (not_le.mp shallow)) _

theorem members_fail {entries done : List (String × Json ν)} {start : Heap ν} {addr : Addr}
    (building : Building interpreter.host start addr done s.heap) (ready : Ready interpreter.host start)
    (distinct : ((done ++ entries).map Prod.fst).Nodup) (notProto : ∀ entry ∈ entries, entry.1 ≠ "__proto__")
    (each : ∀ entry ∈ entries, ∀ s, Ready interpreter.host s.heap → entry.2.depth ≤ remaining →
      ∃ value heap, Builds interpreter remaining entry.2 s value heap)
    (deep : ∀ entry ∈ entries, ∀ s, Ready interpreter.host s.heap → remaining < entry.2.depth →
      Fails (evaluate interpreter remaining (literalOf entry.2)) s) (some_deep : remaining < depthOfEntries entries) :
    Fails (Comp.mapList (visitProperty interpreter (evaluate interpreter remaining) addr)
      (memberLiterals entries)) s := by
  induction entries generalizing s done with
  | nil => exact absurd some_deep (Nat.not_lt_zero _)
  | cons entry entries ih =>
    simp only [forall_mem_cons] at each deep notProto
    have readyNow := ready.grows building.grows
    have absent : entry.1 ∉ done.map Prod.fst := by
      intro member
      rw [map_append, nodup_append] at distinct
      exact distinct.2.2 _ member _ (by simp) rfl
    by_cases shallow : entry.2.depth ≤ remaining
    · obtain ⟨heap, yields, next⟩ := member_yields building ready absent notProto.1 (each.1 s readyNow shallow)
      have distinctRest : ((done ++ [(entry.1, entry.2.readBack)] ++ entries).map Prod.fst).Nodup := by
        simpa using distinct
      have later : remaining < depthOfEntries entries := by
        rw [depthOfEntries] at some_deep
        omega
      have fails := ih (s := { s with heap }) next distinctRest notProto.2 each.2 deep.2 later
      exact Fails.bind_next yields (Fails.bind fails _)
    · refine Fails.bind ?_ _
      rw [visitProperty, propertyKey_keyLiteral]
      exact Fails.bind_next (.pure _ s) (Fails.bind (deep.1 s readyNow (not_le.mp shallow)) _)

theorem literalOf_fails (counts : CountsExactly ν) {value : Json ν} (steady : value.Steady)
    (valid : value.Valid) (deep : remaining < value.depth) (ready : Ready interpreter.host s.heap) :
    Fails (evaluate interpreter remaining (literalOf value)) s := by
  induction value generalizing remaining s with
  | null =>
    obtain rfl : remaining = 0 := Nat.lt_one_iff.mp deep
    exact .throw _ s
  | boolean value =>
    obtain rfl : remaining = 0 := Nat.lt_one_iff.mp deep
    exact .throw _ s
  | number value =>
    cases remaining with
    | zero => exact .throw _ s
    | succ below =>
      rw [Json.depth] at deep
      split_ifs at deep with minus
      · obtain rfl : below = 0 := by omega
        obtain ⟨text, split⟩ := head?_eq_some_iff.mp minus
        rw [literalOf, split, numberLiteral]
        exact unary_fails _ s
      · omega
  | string value =>
    cases remaining with
    | zero => exact .throw _ s
    | succ below =>
      rw [Json.depth] at deep
      rw [literalOf, stringLiteral]
      split_ifs at deep ⊢ with builder isPlaceholder startsEqual
      all_goals try omega
      · obtain rfl : below = 0 := by omega
        exact call_fails ready.placeholder rfl _ s
      · obtain rfl : below = 0 := by omega
        exact call_fails ready.expr rfl _ s
      · simp_all
  | array items ih =>
    cases remaining with
    | zero => exact .throw _ s
    | succ below =>
      obtain ⟨_, itemsSteady⟩ := forall_parts_array.mp steady
      obtain ⟨_, itemsValid⟩ := forall_parts_array.mp valid
      have entered : evaluate interpreter (below + 1) (literalOf (.array items)) =
          (validateNodeType "ArrayExpression" >>= fun _ =>
            visitArrayExpression interpreter (evaluate interpreter below) (itemLiterals items)) := rfl
      rw [entered]
      refine Fails.bind_next (validateNodeType_yields (by decide) (by decide) s) (Fails.bind ?_ _)
      refine items_fail (fun item member s ready shallow => ?_) (fun item member s ready deep => ?_)
        (Nat.lt_of_succ_lt_succ deep) ready
      · exact literalOf_builds counts (itemsSteady item member) (itemsValid item member) shallow ready
      · exact ih item member (itemsSteady item member) (itemsValid item member) deep ready
  | object entries ih =>
    cases remaining with
    | zero => exact .throw _ s
    | succ below =>
      obtain ⟨keys, entriesSteady⟩ := forall_parts_object.mp steady
      obtain ⟨distinct, entriesValid⟩ := forall_parts_object.mp valid
      rw [object_entered]
      refine Fails.bind_next (validateNodeType_yields (by decide) (by decide) s) ?_
      refine Fails.bind_next (newObject_yields interpreter.host s) (Fails.bind ?_ _)
      refine members_fail (building_new interpreter.host s.heap) ready distinct
        (fun entry member => (keys entry member).ne_proto) (fun entry member s ready shallow => ?_)
        (fun entry member s ready deep => ?_) (Nat.lt_of_succ_lt_succ deep)
      · exact literalOf_builds counts (entriesSteady entry member) (entriesValid entry member) shallow ready
      · exact ih entry member (entriesSteady entry member) (entriesValid entry member) deep ready

end Depth

section Sameness

variable {ν : Type} [JsNumber ν] {host : Host ν} {objects : Addr → Option (Obj ν)} {own wider : Addr → Prop}
  {slots : List (String × Slot ν)}

theorem readable_items {items : List (Json ν)}
    (each : ∀ item ∈ items, ∀ value, Represents host objects own item.readBack value →
      Represents host objects wider item value → item.Readable) {index : ℕ}
    (back : RepresentsItems host objects own index (readBackItems items) slots)
    (same : RepresentsItems host objects wider index items slots) : ∀ item ∈ items, item.Readable := by
  induction items generalizing index slots with
  | nil => simp
  | cons item items ih =>
    simp only [forall_mem_cons] at each ⊢
    obtain ⟨value, rest, rfl, first, later⟩ := back
    obtain ⟨other, others, equal, second, laterSame⟩ := same
    simp only [List.cons.injEq, Prod.mk.injEq, true_and, Slot.mk.injEq, Content.data.injEq, and_true] at equal
    obtain ⟨rfl, rfl⟩ := equal
    exact ⟨each.1 value first second, ih each.2 later laterSame⟩

theorem readable_entries {entries : List (String × Json ν)}
    (each : ∀ entry ∈ entries, ∀ value, Represents host objects own entry.2.readBack value →
      Represents host objects wider entry.2 value → entry.2.Readable)
    (back : RepresentsEntries host objects own (readBackEntries entries) slots)
    (same : RepresentsEntries host objects wider entries slots) : ∀ entry ∈ entries, entry.2.Readable := by
  induction entries generalizing slots with
  | nil => simp
  | cons entry entries ih =>
    simp only [forall_mem_cons] at each ⊢
    obtain ⟨value, rest, rfl, first, later⟩ := back
    obtain ⟨other, others, equal, second, laterSame⟩ := same
    simp only [List.cons.injEq, Prod.mk.injEq, true_and, Slot.mk.injEq, Content.data.injEq, and_true] at equal
    obtain ⟨rfl, rfl⟩ := equal
    exact ⟨each.1 value first second, ih each.2 later laterSame⟩

theorem readable_of_represents {json : Json ν} {value : Value ν}
    (back : Represents host objects own json.readBack value) (same : Represents host objects wider json value) :
    json.Readable := by
  induction json generalizing value with
  | null => simp [Json.Readable, Json.parts, Json.NodeReadable]
  | boolean expected => simp [Json.Readable, Json.parts, Json.NodeReadable]
  | number expected => simp [Json.Readable, Json.parts, Json.NodeReadable]
  | string expected =>
    have equal : String.ofList (readBack expected.toList) = expected :=
      Value.string.inj (back.symm.trans same)
    have unchanged : readBack expected.toList = expected.toList := by
      rw [← String.toList_ofList (l := readBack expected.toList), equal]
    simpa [Json.Readable, Json.parts, Json.NodeReadable] using (readBack_eq_iff _).mp unchanged
  | array items ih =>
    obtain ⟨addr, object, rfl, _, found, _, _, slots, split, inside⟩ := back
    obtain ⟨other, copy, equal, _, foundSame, _, _, others, splitSame, insideSame⟩ := same
    obtain rfl := Value.object.inj equal
    obtain rfl := some.inj (found.symm.trans foundSame)
    obtain rfl := (List.cons.inj (split.symm.trans splitSame)).2
    exact forall_parts_array.mpr ⟨trivial, readable_items (fun item member value => ih item member) inside insideSame⟩
  | object entries ih =>
    obtain ⟨addr, object, rfl, _, found, _, _, inside⟩ := back
    obtain ⟨other, copy, equal, _, foundSame, _, _, insideSame⟩ := same
    obtain rfl := Value.object.inj equal
    obtain rfl := some.inj (found.symm.trans foundSame)
    exact forall_parts_object.mpr
      ⟨trivial, readable_entries (fun entry member value => ih entry member) inside insideSame⟩

end Sameness

section RoundTrip

variable {ν : Type} [JsNumber ν]

def ComesBack (parse : List Char → Option (Program ν)) (interpreter : Interpreter ν) (run : ℕ) (heap : Heap ν)
    (value : Json ν) : Prop :=
  ∃ program, parse (executableCode (parameterCode value)) = some program ∧
    let outcome := interpretSDKCode interpreter run heap program
    ∃ addr object result writable enumerable, outcome.result = .ok (.object addr) ∧
      outcome.state.heap.objects addr = some object ∧
      object.properties.get "parameters" = some ⟨.data result writable, enumerable⟩ ∧
      Represents interpreter.host outcome.state.heap.objects (fun _ => True) value result

variable {parse : List Char → Option (Program ν)} {interpreter : Interpreter ν} {run : ℕ} {heap : Heap ν}
  {value : Json ν}

theorem depth_exported (value : Json ν) : (exported value).depth = value.depth + 1 := by
  rw [exported, Json.depth, depthOfEntries, depthOfEntries, max_eq_left (Nat.zero_le _)]

theorem program_entered (value : Json ν) :
    interpret interpreter [.exportDefaultDeclaration (literalOf (exported value))] =
      (validateNodeType "ExportDefaultDeclaration" >>= fun _ =>
        evaluate interpreter MAX_EVAL_DEPTH (literalOf (exported value))) := rfl

theorem program_yields {s t : State ν} {result : Value ν}
    (yields : Yields (evaluate interpreter MAX_EVAL_DEPTH (literalOf (exported value))) s result t) :
    Yields (interpret interpreter [.exportDefaultDeclaration (literalOf (exported value))]) s result t := by
  rw [program_entered]
  exact Yields.bind (validateNodeType_yields (by decide) (by decide) s) yields

theorem program_fails {s : State ν}
    (fails : Fails (evaluate interpreter MAX_EVAL_DEPTH (literalOf (exported value))) s) :
    Fails (interpret interpreter [.exportDefaultDeclaration (literalOf (exported value))]) s := by
  rw [program_entered]
  exact Fails.bind_next (validateNodeType_yields (by decide) (by decide) s) fails

theorem program_builds (counts : CountsExactly ν) (ready : Ready interpreter.host (startState run heap).heap)
    (valid : value.Valid) (steady : value.Steady) (shallow : value.depth < MAX_EVAL_DEPTH) :
    let outcome := interpretSDKCode interpreter run heap [.exportDefaultDeclaration (literalOf (exported value))]
    ∃ addr object result, outcome.result = .ok (.object addr) ∧ outcome.state.heap.objects addr = some object ∧
      object.properties.get "parameters" = some ⟨.data result true, true⟩ ∧
      Represents interpreter.host outcome.state.heap.objects (fun _ => True) value.readBack result := by
  intro outcome
  have enough : (exported value).depth ≤ MAX_EVAL_DEPTH := by
    rw [depth_exported]
    exact shallow
  obtain ⟨built, after, yields, _, represents⟩ :=
    literalOf_builds counts (exported_steady steady) (exported_valid valid) enough ready
  obtain ⟨isOk, reached⟩ := program_yields yields
  obtain ⟨addr, object, rfl, _, found, _, _, result, rest, entries, inside, last⟩ := represents
  have only : rest = [] := last
  have get : object.properties.get "parameters" = some ⟨.data result true, true⟩ := by
    simp [OrderedMap.get, entries, OrderedMap.getEntry]
  have state : outcome.state.heap = after := congrArg State.heap reached
  refine ⟨addr, object, result, isOk, by rw [state, found], get, ?_⟩
  rw [state]
  exact represents_mono (fun _ _ => ⟨trivial, rfl⟩) inside

theorem ComesBack.readable (parses : ParsesFragment parse) (counts : CountsExactly ν)
    (ready : Ready interpreter.host (startState run heap).heap) (valid : value.Valid)
    (steady : value.Steady) (comesBack : ComesBack parse interpreter run heap value) :
    value.Readable ∧ value.depth < MAX_EVAL_DEPTH := by
  have parsed := parses _ _ (parseProgram_parameterCode steady valid)
  obtain ⟨program, isProgram, addr, object, result, writable, enumerable, isOk, found, get, same⟩ := comesBack
  obtain rfl := some.inj (parsed.symm.trans isProgram)
  have shallow : value.depth < MAX_EVAL_DEPTH := by
    by_contra deep
    have tooDeep : MAX_EVAL_DEPTH < (exported value).depth := by
      rw [depth_exported]
      omega
    obtain ⟨error, failed⟩ := program_fails
      (literalOf_fails counts (exported_steady steady) (exported_valid valid) tooDeep ready)
    cases isOk.symm.trans failed
  obtain ⟨other, copy, back, isOkBack, foundBack, getBack, represents⟩ :=
    program_builds counts ready valid steady shallow
  obtain rfl := Value.object.inj (Except.ok.inj (isOk.symm.trans isOkBack))
  obtain rfl := some.inj (found.symm.trans foundBack)
  have slots := some.inj (get.symm.trans getBack)
  simp only [Slot.mk.injEq, Content.data.injEq] at slots
  obtain ⟨⟨rfl, _⟩, _⟩ := slots
  exact ⟨readable_of_represents represents same, shallow⟩

/-- If no quoted text dangles and no key is `__proto__`, a value comes back if and only if
its strings are readable and it is not nested too deeply. -/
theorem parameterCode_comesBack_iff (parses : ParsesFragment parse) (counts : CountsExactly ν)
    (ready : Ready interpreter.host (startState run heap).heap) {value : Json ν} (valid : value.Valid)
    (steady : value.Steady) :
    ComesBack parse interpreter run heap value ↔ value.Readable ∧ value.depth < MAX_EVAL_DEPTH := by
  constructor
  · exact ComesBack.readable parses counts ready valid steady
  · rintro ⟨readable, shallow⟩
    obtain ⟨addr, object, result, isOk, found, get, represents⟩ :=
      program_builds counts ready valid steady shallow
    rw [readBack_of_readable readable] at represents
    have parsed := parses _ _ (parseProgram_parameterCode steady valid)
    exact ⟨_, parsed, addr, object, result, true, true, isOk, found, get, represents⟩

end RoundTrip

section Examples

def builderHost : Host Int :=
  { smallHost with
    call function thisArg args heap :=
      match args with
      | [.string text] =>
        if function = ⟨1, 1, true⟩ then ⟨.ok (.string (String.ofList (placeholder text.toList))), heap, []⟩
        else if function = ⟨1, 2, true⟩ then ⟨.ok (.string (String.ofList (expr text.toList))), heap, []⟩
        else smallHost.call function thisArg args heap
      | _ => smallHost.call function thisArg args heap
    sdkFunctions := smallHost.sdkFunctions.set "expr" ⟨1, 2, true⟩ }

def builderHeap : Heap Int :=
  { smallHeap with
    objects addr :=
      if addr = ⟨1, 2, true⟩ then some ⟨[⟨0, 1, true⟩, ⟨0, 0, false⟩], false, .empty⟩
      else smallHeap.objects addr }

def builderInterpreter : Interpreter Int := { smallInterpreter with host := builderHost }

def fragmentParse (code : List Char) : Option (Program Int) := (tokens code).bind parseProgram

theorem builderHost_computes {name : String} {function : List Char → List Char} {addr : Addr}
    (provided : builderHost.sdkFunctions.get name = some addr) (isBuilder : addr = ⟨1, 1, true⟩ ∨ addr = ⟨1, 2, true⟩)
    (call : ∀ text later, builderHost.call addr .undefined [.string (String.ofList text)] later =
      ⟨.ok (.string (String.ofList (function text))), later, []⟩) :
    Computes builderHost (startState 2 builderHeap).heap name function := by
  have callable : addr.callable = true := by rcases isBuilder with rfl | rfl <;> rfl
  have chain : chainIn (startState 2 builderHeap).heap addr = [addr, ⟨0, 1, true⟩, ⟨0, 0, false⟩] := by
    rcases isBuilder with rfl | rfl <;> decide
  refine ⟨addr, provided, callable, ?_, ⟨⟨0, 1, true⟩, true, false, ?_⟩, call⟩
  · rw [chain]
    rcases isBuilder with rfl | rfl <;> decide
  · rw [chain]
    rcases isBuilder with rfl | rfl <;> decide

theorem builderHost_ready : Ready builderInterpreter.host (startState 2 builderHeap).heap where
  assignable := by
    refine ⟨by decide, fun object name slot found get _ => ?_⟩
    simp only [startState, builderInterpreter, builderHost, smallHost, builderHeap, smallHeap] at found
    simp only [Addr.mk.injEq, zero_ne_one, false_and, if_false, if_true, some.injEq] at found
    subst found
    simp only [OrderedMap.get_set, OrderedMap.get_empty] at get
    split at get
    · cases get
      exact ⟨_, rfl⟩
    · cases get
  expr := builderHost_computes (by decide) (.inr rfl) fun text later => by
    simp [builderHost]
  placeholder := builderHost_computes (by decide) (.inl rfl) fun text later => by
    simp [builderHost]

theorem countsExactly_int : CountsExactly Int := fun count _ => by
  simp [JsNumber.toNat, JsNumber.ofNat]

def nestedValue : Json Int :=
  .object [("a b", .array [.string "={{ $json.id }}", .string "<__PLACEHOLDER_VALUE__it's__>", .null])]

theorem nestedValue_comesBack : ComesBack fragmentParse builderInterpreter 2 builderHeap nestedValue := by
  refine (parameterCode_comesBack_iff (fun _ _ parsed => parsed) countsExactly_int builderHost_ready ?_ ?_).mpr
    ⟨?_, by decide⟩
  · simp [nestedValue, Json.Valid, Json.parts, partsOfItems, partsOfEntries, Json.NodeValid]
  · simp [nestedValue, Json.Steady, Json.parts, partsOfItems, partsOfEntries, Json.NodeSteady, KeySteady]
    decide
  · have first : Readable "={{ $json.id }}".toList := (readBack_eq_iff _).mp (by decide)
    have second : Readable "<__PLACEHOLDER_VALUE__it's__>".toList := (readBack_eq_iff _).mp (by decide)
    simp only [nestedValue, Json.Readable, Json.parts, partsOfItems, partsOfEntries, Json.NodeReadable,
      cons_append, nil_append, append_nil]
    simp only [forall_mem_cons, first, second]
    simp

/-- `'==x'` is written as `expr('=x')`, which gives `'=x'`. -/
theorem doubled_equals_sign_is_lost : formatValue (.string "==x" : Json Int) = "expr('=x')".toList ∧
    ¬ComesBack fragmentParse builderInterpreter 2 builderHeap (.string "==x") := by
  refine ⟨by decide, fun comesBack => ?_⟩
  have readable := (comesBack.readable (fun _ _ parsed => parsed) countsExactly_int builderHost_ready
    (by simp [Json.Valid, Json.parts, Json.NodeValid])
    (by simp only [Json.Steady, Json.parts, Json.NodeSteady, Dangling, forall_mem_singleton]; decide)).1
  have string := readable (.string "==x") (by simp [Json.parts])
  exact string.2 (by decide)

end Examples

end N8n.FormatValue
