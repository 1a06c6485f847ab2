import N8n.SecurityValidator

/-! The trees on which the security validator reports nothing, and the names that it does not look
at. -/

namespace N8n.SecurityValidator

open FormatTemplate PythonSyntax List

section Positions

variable (node : Node)

def boundName (name : String) (asname : Option String) : String := asname.getD (moduleName name)

def identifiers : List String :=
  match node.kind with
  | .name id => [id]
  | .arg arg => [arg]
  | .functionDef name | .asyncFunctionDef name | .classDef name => [name]
  | .import_ => node.aliases.map fun (name, asname) => boundName name asname
  | .importFrom _ _ => node.aliases.flatMap fun (name, asname) => name :: asname.toList
  | .global names | .nonlocal names => names
  | .exceptHandler name => name.toList
  | .matchAs name | .matchStar name | .matchMapping name => name.toList
  | .typeVar name | .paramSpec name | .typeVarTuple name => [name]
  | _ => []

def attributes : List String :=
  match node.kind with
  | .attribute_ attr => [attr]
  | .matchClass kwdAttrs => kwdAttrs
  | _ => []

/-- The identifiers that no method of the validator looks at. -/
def unvisited : List String :=
  match node.kind with
  | .import_ => node.aliases.filterMap fun (name, asname) =>
      if asname = none then some (moduleName name) else none
  | .nonlocal names => names
  | .matchAs name | .matchStar name | .matchMapping name => name.toList
  | .typeVar name | .paramSpec name | .typeVarTuple name => [name]
  | _ => []

/-- No node reads or binds a blocked name or accesses a blocked attribute. -/
def Clean (tree : Node) : Prop :=
  ∀ part ∈ tree.parts false, (∀ name ∈ identifiers part.2, name ∉ BLOCKED_NAMES) ∧
    ∀ attr ∈ attributes part.2, attr ∉ BLOCKED_ATTRIBUTES

def UnvisitedClean (tree : Node) : Prop :=
  ∀ part ∈ tree.parts false, ∀ name ∈ unvisited part.2, name ∉ BLOCKED_NAMES

end Positions

section Rules

variable (library : Library) (config : SecurityConfig)

def AllowedModule (moduleName : String) : Prop :=
  if moduleName ∈ library.stdlibModuleNames then
    "*" ∈ config.stdlibAllow ∨ moduleName ∈ config.stdlibAllow
  else "*" ∈ config.externalAllow ∨ moduleName ∈ config.externalAllow

def Disallowed (modulePath : String) : Prop :=
  modulePath.toList.head? = some '.' ∨ ¬ AllowedModule library config (moduleName modulePath)

/-- What is not accepted of a node, where `called` says whether its parent calls it. -/
def Breaks (called : Bool) (node : Node) : Prop :=
  match node.kind with
  | .import_ => ∃ entry ∈ node.aliases, Disallowed library config entry.1 ∨ isBlockedName entry.2 = true
  | .importFrom module level =>
      (0 < level ∨ ∃ name, module = some name ∧ name ≠ "" ∧ Disallowed library config name) ∨
        ∃ entry ∈ node.aliases, isBlockedName entry.2 = true ∨ entry.1 ∈ BLOCKED_NAMES
  | .name id => id ∈ BLOCKED_NAMES
  | .attribute_ attr => (attr ∈ BLOCKED_ATTRIBUTES ∨ attr ∈ FORMAT_METHOD_NAMES ∧ called = false) ∨
      isNameMangled attr = true
  | .call => isImportCall node = true ∧
      ∀ name, (node.get .args).head?.bind text? = some name → Disallowed library config name
  | .subscript => isBuiltinsAccess node = true ∧
      ∃ key, (node.get .slice).head?.bind text? = some key ∧ key ∈ BLOCKED_ATTRIBUTES
  | .constant (.str text) => findBlockedFormatTokens library.isalnum text.toList ≠ []
  | .global names => ∃ name ∈ names, name ∈ BLOCKED_NAMES
  | .functionDef name | .asyncFunctionDef name | .classDef name | .arg name => name ∈ BLOCKED_NAMES
  | .exceptHandler name => isBlockedName name = true
  | .matchClass kwdAttrs =>
      node.get .patterns ≠ [] ∨ ∃ attr ∈ kwdAttrs, attr ∈ BLOCKED_ATTRIBUTES
  | _ => False

def Sound (validator : Validator) : Prop :=
  validator.violations = [] → ∀ name ∈ validator.checkedModules, AllowedModule library config name

end Rules

section Checks

variable (library : Library) (config : SecurityConfig)

structure Checks (known : List (List ℕ)) (check : Validator → Validator) (bad : Prop) : Prop where
  sound : ∀ {validator}, Sound library config validator → validator.callFuncAttrIds = known →
    Sound library config (check validator)
  ids : ∀ {validator}, Sound library config validator → validator.callFuncAttrIds = known →
    (check validator).callFuncAttrIds = known
  reports : ∀ {validator}, Sound library config validator → validator.callFuncAttrIds = known →
    ((check validator).violations = [] ↔ validator.violations = [] ∧ ¬ bad)

variable {library config} {ids : List (List ℕ)}

theorem Checks.skip : Checks library config ids (fun validator => validator) False where
  sound sound _ := sound
  ids _ known := known
  reports _ _ := by simp

theorem Checks.addViolation (lineno : ℕ) (message : String) :
    Checks library config ids (·.addViolation lineno message) True where
  sound _ _ := by simp [Sound, Validator.addViolation]
  ids _ known := known
  reports _ _ := by simp [Validator.addViolation]

variable {bad bad' : Prop} {called : Bool} {node : Node} {path : List ℕ}

theorem Checks.congr {check : Validator → Validator} (same : bad ↔ bad')
    (checks : Checks library config ids check bad) : Checks library config ids check bad' :=
  propext same ▸ checks

theorem Checks.onKnown {check check' : Validator → Validator} (checks : Checks library config ids check bad)
    (same : ∀ validator, validator.callFuncAttrIds = ids → check' validator = check validator) :
    Checks library config ids check' bad where
  sound sound known := same _ known ▸ checks.sound sound known
  ids sound known := same _ known ▸ checks.ids sound known
  reports sound known := same _ known ▸ checks.reports sound known

theorem Checks.andThen {first second : Validator → Validator}
    (one : Checks library config ids first bad) (two : Checks library config ids second bad') :
    Checks library config ids (fun validator => second (first validator)) (bad ∨ bad') where
  sound sound known := two.sound (one.sound sound known) (one.ids sound known)
  ids sound known := two.ids (one.sound sound known) (one.ids sound known)
  reports sound known := by
    rw [two.reports (one.sound sound known) (one.ids sound known), one.reports sound known, not_or, and_assoc]

theorem Checks.ite {condition : Prop} [Decidable condition] {first second : Validator → Validator}
    (one : Checks library config ids first bad) (two : Checks library config ids second bad') :
    Checks library config ids (fun validator => if condition then first validator else second validator)
      (if condition then bad else bad') := by
  by_cases holds : condition
  · simpa only [if_pos holds] using one
  · simpa only [if_neg holds] using two

theorem Checks.reject (condition : Prop) [Decidable condition] (lineno : ℕ) (message : String) :
    Checks library config ids (·.reject condition lineno message) condition :=
  (Checks.ite (.addViolation lineno message) .skip).congr (by simp)

theorem Checks.foldl {α : Type} {check : Validator → α → Validator} {bad : α → Prop}
    (each : ∀ x, Checks library config ids (check · x) (bad x)) (xs : List α) :
    Checks library config ids (fun validator => xs.foldl check validator) (∃ x ∈ xs, bad x) := by
  induction xs with
  | nil => exact Checks.skip.congr (by simp)
  | cons x xs ih => exact ((each x).andThen ih).congr (by simp)

theorem validateModuleImport_eq_none {modulePath : String} : validateModuleImport library config modulePath = none ↔
      AllowedModule library config (moduleName modulePath) := by
  simp only [validateModuleImport, AllowedModule]
  by_cases stdlib : moduleName modulePath ∈ library.stdlibModuleNames
  · simp [stdlib, or_iff_not_imp_left]
  · simp [stdlib, or_iff_not_imp_left]

theorem Checks.validateImport (lineno : ℕ) (modulePath : String) : Checks library config ids
      (SecurityValidator.validateImport library config lineno · modulePath)
      (Disallowed library config modulePath) := by
  by_cases relative : modulePath.toList.head? = some '.'
  · have same : (SecurityValidator.validateImport library config lineno · modulePath) =
        (·.addViolation lineno ERROR_RELATIVE_IMPORT) := by
      funext validator
      simp [SecurityValidator.validateImport, relative]
    rw [same]
    exact (Checks.addViolation lineno ERROR_RELATIVE_IMPORT).congr (by simp [Disallowed, relative])
  have disallowed : Disallowed library config modulePath ↔ ¬ AllowedModule library config (moduleName modulePath) := by
    simp [Disallowed, relative]
  constructor
  · intro validator sound known
    simp only [SecurityValidator.validateImport, if_neg relative]
    split_ifs with checked
    · exact sound
    · cases valid : validateModuleImport library config modulePath with
      | none =>
        intro none_ name listed
        rcases mem_append.mp listed with old | last
        · exact sound none_ name old
        · rw [mem_singleton.mp last]
          exact validateModuleImport_eq_none.mp valid
      | some message => simp [Sound, Validator.addViolation]
  · intro validator sound known
    simp only [SecurityValidator.validateImport, if_neg relative]
    split_ifs
    · exact known
    · split
      · exact known
      · exact known
  · intro validator sound known
    simp only [SecurityValidator.validateImport, if_neg relative, disallowed, not_not]
    split_ifs with checked
    · exact ⟨fun none_ => ⟨none_, sound none_ _ checked⟩, And.left⟩
    · rw [← validateModuleImport_eq_none]
      cases valid : validateModuleImport library config modulePath with
      | none => simp
      | some message => simp [Validator.addViolation]

theorem Checks.visitImport (node : Node) :
    Checks library config ids (SecurityValidator.visitImport library config node ·) (∃ entry ∈ node.aliases,
        Disallowed library config entry.1 ∨ isBlockedName entry.2 = true) :=
  .foldl (fun (name, _) => .andThen (.validateImport node.lineno name) (.reject _ _ _)) node.aliases

theorem Checks.visitImportFrom (node : Node) (module : Option String) (level : ℕ) :
    Checks library config ids (SecurityValidator.visitImportFrom library config node · module level)
      ((0 < level ∨ ∃ name, module = some name ∧ name ≠ "" ∧ Disallowed library config name) ∨
        ∃ entry ∈ node.aliases, isBlockedName entry.2 = true ∨ entry.1 ∈ BLOCKED_NAMES) := by
  have names (entry : String × Option String) : Checks library config ids
      (fun validator => if isBlockedName entry.2 then
          validator.addViolation node.lineno (ERROR_DANGEROUS_NAME (entry.2.getD ""))
        else validator.reject (entry.1 ∈ BLOCKED_NAMES) node.lineno (ERROR_DANGEROUS_NAME entry.1))
      (isBlockedName entry.2 = true ∨ entry.1 ∈ BLOCKED_NAMES) :=
    (Checks.ite (.addViolation _ _) (.reject _ _ _)).congr (by simp [or_iff_not_imp_left])
  cases module with
  | none => exact ((Checks.ite (.addViolation _ _) .skip).congr (by simp)).andThen (.foldl names node.aliases)
  | some name =>
    have imports : Checks library config ids (fun validator => if name = "" then validator
        else SecurityValidator.validateImport library config node.lineno validator name)
        (if name = "" then False else Disallowed library config name) :=
      Checks.ite .skip (.validateImport node.lineno name)
    exact ((Checks.ite (.addViolation _ _) imports).congr (by simp [or_iff_not_imp_left])).andThen
      (.foldl names node.aliases)

theorem Checks.visitAttribute (attr : String) (fits : attr ∈ FORMAT_METHOD_NAMES → (path ∈ ids ↔ called = true)) :
    Checks library config ids (SecurityValidator.visitAttribute node · path attr)
      ((attr ∈ BLOCKED_ATTRIBUTES ∨ attr ∈ FORMAT_METHOD_NAMES ∧ called = false) ∨ isNameMangled attr = true) := by
  have bare : attr ∈ FORMAT_METHOD_NAMES ∧ path ∉ ids ↔ attr ∈ FORMAT_METHOD_NAMES ∧ called = false := by
    refine and_congr_right fun format => ?_
    rw [fits format, Bool.not_eq_true]
  have checks : Checks library config ids _ _ :=
    ((Checks.reject (attr ∈ BLOCKED_ATTRIBUTES) node.lineno (ERROR_DANGEROUS_ATTRIBUTE attr)).andThen
      ((Checks.reject (attr ∈ FORMAT_METHOD_NAMES ∧ path ∉ ids) node.lineno
        (ERROR_BARE_FORMAT_ATTRIBUTE attr)).congr bare)).andThen
      (.reject (isNameMangled attr = true) node.lineno ERROR_NAME_MANGLED_ATTRIBUTE)
  refine checks.onKnown fun validator known => ?_
  simp only [SecurityValidator.visitAttribute, known]

theorem Checks.visitSubscript (node : Node) : Checks library config ids (SecurityValidator.visitSubscript node ·)
      (isBuiltinsAccess node = true ∧
        ∃ key, (node.get .slice).head?.bind text? = some key ∧ key ∈ BLOCKED_ATTRIBUTES) := by
  refine (Checks.ite (?_ : Checks library config ids _ (∃ key,
    (node.get .slice).head?.bind text? = some key ∧ key ∈ BLOCKED_ATTRIBUTES)) .skip).congr
    (by simp)
  cases (node.get .slice).head?.bind text? with
  | none => exact Checks.skip.congr (by simp)
  | some key => exact (Checks.reject _ _ _).congr (by simp)

theorem Checks.visitConstant (node : Node) (text : String) :
    Checks library config ids (SecurityValidator.visitConstant library node · (.str text))
      (findBlockedFormatTokens library.isalnum text.toList ≠ []) :=
  (Checks.foldl (fun _ => .addViolation _ _) _).congr (by
    simp [eq_nil_iff_forall_not_mem])

theorem Checks.visitGlobal (node : Node) (names : List String) :
    Checks library config ids (SecurityValidator.visitGlobal node · names) (∃ name ∈ names, name ∈ BLOCKED_NAMES) :=
  .foldl (fun _ => .reject _ _ _) names

theorem Checks.visitMatchClass (node : Node) (kwdAttrs : List String) :
    Checks library config ids (SecurityValidator.visitMatchClass node · kwdAttrs)
      (node.get .patterns ≠ [] ∨ ∃ attr ∈ kwdAttrs, attr ∈ BLOCKED_ATTRIBUTES) :=
  .andThen (.reject _ _ _) (.foldl (fun _ => .reject _ _ _) kwdAttrs)

theorem Checks.importCall (node : Node) : Checks library config ids (fun validator => if isImportCall node then
          match (node.get .args).head?.bind text? with
          | some moduleName =>
            SecurityValidator.validateImport library config node.lineno validator moduleName
          | none => validator.addViolation node.lineno ERROR_DYNAMIC_IMPORT
        else validator)
      (isImportCall node = true ∧ ∀ name, (node.get .args).head?.bind text? = some name →
        Disallowed library config name) := by
  refine (Checks.ite (?_ : Checks library config ids _ (∀ name,
    (node.get .args).head?.bind text? = some name → Disallowed library config name)) .skip).congr
    (by simp)
  cases (node.get .args).head?.bind text? with
  | none => exact (Checks.addViolation _ _).congr (by simp)
  | some name => exact (Checks.validateImport _ name).congr (by simp)

theorem Checks.visitNode (notCall : node.kind ≠ .call)
    (fits : isFormatAttribute node = true → (path ∈ ids ↔ called = true)) :
    Checks library config ids (SecurityValidator.visitNode library config node · path)
      (Breaks library config called node) := by
  cases node with
  | node kind lineno children =>
    cases kind with
    | import_ => exact .visitImport _
    | importFrom module level => exact .visitImportFrom _ module level
    | name id => exact .reject _ _ _
    | attribute_ attr =>
      refine .visitAttribute attr fun format => fits ?_
      simpa [isFormatAttribute, Node.kind] using format
    | call => exact absurd rfl notCall
    | subscript => exact .visitSubscript _
    | constant value =>
      cases value with
      | str text => exact .visitConstant _ text
      | other => exact .skip
    | global names => exact .visitGlobal _ names
    | functionDef name | asyncFunctionDef name | classDef name | arg name | exceptHandler name =>
      exact .reject _ _ _
    | matchClass kwdAttrs => exact .visitMatchClass _ kwdAttrs
    | _ => exact .skip

end Checks

section Trees

variable {library : Library} {config : SecurityConfig} {validator : Validator}

def newIds (path : List ℕ) (node : Node) : List (List ℕ) :=
  if node.kind = .call ∧ (func node).any isFormatAttribute = true then
    node.funcIndex.toList.map fun index => path ++ [index]
  else []

variable {node : Node} {path : List ℕ}

theorem visitNode_spec (sound : Sound library config validator) {called : Bool}
    (fits : isFormatAttribute node = true → (path ∈ validator.callFuncAttrIds ↔ called = true)) :
    Sound library config (visitNode library config node validator path) ∧
      (visitNode library config node validator path).callFuncAttrIds = validator.callFuncAttrIds ++ newIds path node ∧
      ((visitNode library config node validator path).violations = [] ↔
        validator.violations = [] ∧ ¬ Breaks library config called node) := by
  by_cases call : node.kind = .call
  · have visits : visitNode library config node validator path =
        visitCall library config node validator path := by
      rw [visitNode, call]
    have breaks : Breaks library config called node ↔ (isImportCall node = true ∧
        ∀ name, (node.get .args).head?.bind text? = some name → Disallowed library config name) := by
      rw [Breaks, call]
    have notes : (if (func node).any isFormatAttribute = true then
          { validator with
            callFuncAttrIds := validator.callFuncAttrIds ++ node.funcIndex.toList.map fun index => path ++ [index] }
        else validator) =
        { validator with
          callFuncAttrIds := validator.callFuncAttrIds ++ newIds path node } := by
      split_ifs with format
      · rw [newIds, if_pos ⟨call, format⟩]
      · rw [newIds, if_neg fun holds => format holds.2, append_nil]
    have checks : Checks library config (validator.callFuncAttrIds ++ newIds path node) _ _ :=
      .importCall node
    have noted : Sound library config { validator with
        callFuncAttrIds := validator.callFuncAttrIds ++ newIds path node } := sound
    rw [visits, breaks, visitCall, notes]
    exact ⟨checks.sound noted rfl, checks.ids noted rfl, checks.reports noted rfl⟩
  · have checks : Checks library config validator.callFuncAttrIds _ _ := .visitNode call fits
    refine ⟨checks.sound sound rfl, ?_, checks.reports sound rfl⟩
    rw [checks.ids sound rfl, newIds, if_neg fun holds => call holds.1, append_nil]

theorem head?_get (field : Field) (children : List (Field × Node)) :
    (children.filterMap fun entry => if entry.1 = field then some entry.2 else none).head? =
      ((children.findIdx? fun entry => entry.1 = field).bind fun index => children[index]?).map
        Prod.snd := by
  induction children with
  | nil => rfl
  | cons entry children ih =>
    by_cases here : entry.1 = field
    · simp [findIdx?_cons, here]
    · simp only [filterMap_cons, if_neg here, ih, findIdx?_cons, decide_eq_true_eq, Option.bind_map]
      rfl

structure Ready (path : List ℕ) (funcIndex : Option ℕ) (index : ℕ)
    (children : List (Field × Node)) (ids : List (List ℕ)) : Prop where
  above : ∀ later, index ≤ later → ∀ id ∈ ids, path ++ [later] <+: id → id = path ++ [later]
  calls : ∀ place entry, children[place]? = some entry → isFormatAttribute entry.2 = true →
    (path ++ [index + place] ∈ ids ↔ funcIndex = some (index + place))

theorem prefix_child {index later : ℕ} : path ++ [index] <+: path ++ [later] ↔ index = later := by
  rw [prefix_append_right_inj]
  simp

theorem Ready.children {ids : List (List ℕ)} (outside : ∀ id ∈ ids, path <+: id → id = path) :
    Ready path node.funcIndex 0 node.children (ids ++ newIds path node) where
  above later _ id listed inside := by
    rcases mem_append.mp listed with old | new
    · have same := outside id old ((prefix_append path [later]).trans inside)
      have longer := inside.length_le
      simp [same] at longer
    · rw [newIds] at new
      split_ifs at new with calls
      · obtain ⟨index, found, rfl⟩ := List.mem_map.mp new
        rw [prefix_child.mp inside]
      · cases new
  calls place entry at_ format := by
    rw [Nat.zero_add, mem_append]
    constructor
    · rintro (old | new)
      · have same := outside _ old (prefix_append path [place])
        simp at same
      · rw [newIds] at new
        split_ifs at new with calls
        · obtain ⟨index, found, same⟩ := List.mem_map.mp new
          obtain rfl : index = place := by simpa using same
          exact Option.mem_toList.mp found
        · cases new
    · intro found
      have call : node.kind = .call := by
        by_contra other
        simp [Node.funcIndex, other] at found
      have called : func node = some entry.2 := by
        rw [Node.funcIndex, if_pos call] at found
        rw [func, Node.get, head?_get, found]
        simp [at_]
      refine .inr ?_
      rw [newIds, if_pos ⟨call, by rw [called]; exact format⟩, found]
      exact mem_singleton_self _

theorem Ready.next {funcIndex : Option ℕ} {index : ℕ} {entry : Field × Node}
    {children : List (Field × Node)} {ids added : List (List ℕ)}
    (ready : Ready path funcIndex index (entry :: children) ids)
    (inside : ∀ id ∈ added, path ++ [index] <+: id ∧ id ≠ path ++ [index]) :
    Ready path funcIndex (index + 1) children (ids ++ added) where
  above later after id listed below := by
    rcases mem_append.mp listed with old | new
    · exact ready.above later (by omega) id old below
    · have same := prefix_of_prefix_length_le (inside id new).1 below (by simp)
      rw [prefix_child] at same
      omega
  calls place entry at_ format := by
    have other : path ++ [index + 1 + place] ∉ added := by
      intro listed
      have same := prefix_child.mp (inside _ listed).1
      omega
    have here := ready.calls (place + 1) entry at_ format
    rw [show index + (place + 1) = index + 1 + place by omega] at here
    rw [mem_append, or_iff_left other, here]

/-- What a visit does: it knows new calls in some places and reports the nodes that break a rule. -/
structure Visits (library : Library) (config : SecurityConfig) (validator after : Validator)
    (parts : List (Bool × Node)) (inside : List ℕ → Prop) : Prop where
  sound : Sound library config after
  ids : ∃ added, after.callFuncAttrIds = validator.callFuncAttrIds ++ added ∧ ∀ id ∈ added, inside id
  reports : after.violations = [] ↔ validator.violations = [] ∧ ∀ part ∈ parts, ¬ Breaks library config part.1 part.2

theorem newIds_inside : ∀ id ∈ newIds path node, path <+: id ∧ id ≠ path := by
  intro id listed
  rw [newIds] at listed
  split_ifs at listed
  · obtain ⟨index, -, rfl⟩ := List.mem_map.mp listed
    exact ⟨prefix_append _ _, by simp⟩
  · cases listed

mutual

theorem visit_spec (path : List ℕ) (called : Bool) : ∀ (tree : Node) {validator : Validator},
    Sound library config validator →
    (isFormatAttribute tree = true → (path ∈ validator.callFuncAttrIds ↔ called = true)) →
    (∀ id ∈ validator.callFuncAttrIds, path <+: id → id = path) →
    Visits library config validator (visit library config path tree validator)
      (tree.parts called) fun id => path <+: id ∧ id ≠ path
  | .node kind lineno children, validator, sound, fits, outside => by
    obtain ⟨sound', ids, reports⟩ := visitNode_spec sound fits
    have visits := genericVisit_spec path (Node.node kind lineno children).funcIndex children 0
      sound' (ids ▸ Ready.children outside)
    rw [visit, Node.parts]
    refine ⟨visits.sound, ?_, ?_⟩
    · obtain ⟨added, appended, below⟩ := visits.ids
      refine ⟨newIds path (.node kind lineno children) ++ added, ?_, fun id listed => ?_⟩
      · rw [appended, ids, append_assoc]
      rcases mem_append.mp listed with new | deeper
      · exact newIds_inside id new
      · obtain ⟨later, -, inside⟩ := below id deeper
        refine ⟨(prefix_append path [later]).trans inside, ?_⟩
        rintro rfl
        have longer := inside.length_le
        simp at longer
    · rw [visits.reports, reports, forall_mem_cons, and_assoc]

theorem genericVisit_spec (path : List ℕ) (funcIndex : Option ℕ) :
    ∀ (children : List (Field × Node)) (index : ℕ) {validator : Validator},
    Sound library config validator →
    Ready path funcIndex index children validator.callFuncAttrIds →
    Visits library config validator (genericVisit library config path index children validator)
      (partsOfChildren funcIndex index children) fun id =>
        ∃ later, index ≤ later ∧ path ++ [later] <+: id
  | [], index, validator, sound, _ => ⟨sound, ⟨[], by simp [genericVisit], by simp⟩,
      by simp [genericVisit, partsOfChildren]⟩
  | (field, child) :: children, index, validator, sound, ready => by
    have first := visit_spec (path ++ [index]) (funcIndex == some index) child sound
      (by simpa using ready.calls 0 (field, child) rfl) (ready.above index le_rfl)
    obtain ⟨added, appended, inside⟩ := first.ids
    have others := genericVisit_spec path funcIndex children (index + 1) first.sound (appended ▸ ready.next inside)
    rw [genericVisit, partsOfChildren]
    refine ⟨others.sound, ?_, ?_⟩
    · obtain ⟨added', appended', inside'⟩ := others.ids
      refine ⟨added ++ added', ?_, fun id listed => ?_⟩
      · rw [appended', appended, append_assoc]
      rcases mem_append.mp listed with here | behind
      · exact ⟨index, le_rfl, (inside id here).1⟩
      · obtain ⟨later, after, below⟩ := inside' id behind
        exact ⟨later, by omega, below⟩
    · rw [others.reports, first.reports, forall_mem_append, and_assoc]

end

theorem violations_eq_nil_iff {tree : Node} : violations library config tree = [] ↔
    ∀ part ∈ tree.parts false, ¬ Breaks library config part.1 part.2 := by
  have sound : Sound library config {} := by simp [Sound]
  have visits : Visits library config {} _ (tree.parts false) _ :=
    visit_spec [] false tree sound (by simp) (by simp)
  rw [violations, visits.reports]
  simp

end Trees

section Coverage

variable {library : Library} {config : SecurityConfig} {node : Node}

theorem unvisited_subset {name : String} (unseen : name ∈ unvisited node) : name ∈ identifiers node := by
  cases node with
  | node kind lineno children =>
    cases kind with
    | import_ =>
      obtain ⟨⟨module, asname⟩, listed, bound⟩ := mem_filterMap.mp unseen
      dsimp only at bound
      split_ifs at bound with unnamed
      cases bound
      exact List.mem_map.mpr ⟨_, listed, by simp [boundName, unnamed]⟩
    | nonlocal | matchAs | matchStar | matchMapping | typeVar | paramSpec | typeVarTuple =>
      exact unseen
    | _ => cases unseen

theorem clean_of_not_breaks {called : Bool} (accepted : ¬ Breaks library config called node)
    (unseen : ∀ name ∈ unvisited node, name ∉ BLOCKED_NAMES) :
    (∀ name ∈ identifiers node, name ∉ BLOCKED_NAMES) ∧ ∀ attr ∈ attributes node, attr ∉ BLOCKED_ATTRIBUTES := by
  cases node with
  | node kind lineno children =>
    cases kind with
    | name | arg | functionDef | asyncFunctionDef | classDef =>
      exact ⟨forall_mem_singleton.mpr accepted, by simp [attributes, Node.kind]⟩
    | import_ =>
      refine ⟨fun name bound blocked => ?_, by simp [attributes, Node.kind]⟩
      obtain ⟨⟨module, asname⟩, listed, rfl⟩ := List.mem_map.mp bound
      cases asname with
      | none =>
        refine unseen _ (mem_filterMap.mpr ⟨_, listed, ?_⟩) blocked
        simp [boundName]
      | some asname =>
        exact accepted ⟨_, listed, .inr (by simpa [isBlockedName, boundName] using blocked)⟩
    | importFrom module level =>
      refine ⟨fun name bound blocked => ?_, by simp [attributes, Node.kind]⟩
      obtain ⟨⟨imported, asname⟩, listed, here⟩ := mem_flatMap.mp bound
      refine accepted (.inr ⟨_, listed, ?_⟩)
      rcases mem_cons.mp here with rfl | named
      · exact .inr blocked
      · obtain rfl := Option.mem_toList.mp named
        exact .inl (by simpa [isBlockedName] using blocked)
    | global names =>
      exact ⟨fun name listed blocked => accepted ⟨name, listed, blocked⟩, by simp [attributes, Node.kind]⟩
    | exceptHandler name =>
      refine ⟨fun caught listed blocked => accepted ?_, by simp [attributes, Node.kind]⟩
      obtain rfl := Option.mem_toList.mp listed
      show isBlockedName (some caught) = true
      simpa [isBlockedName] using blocked
    | nonlocal | matchAs | matchStar | matchMapping | typeVar | paramSpec | typeVarTuple =>
      exact ⟨unseen, by simp [attributes, Node.kind]⟩
    | attribute_ attr =>
      exact ⟨by simp [identifiers, Node.kind],
        forall_mem_singleton.mpr fun blocked => accepted (.inl (.inl blocked))⟩
    | matchClass kwdAttrs =>
      exact ⟨by simp [identifiers, Node.kind],
        fun attr listed blocked => accepted (.inr ⟨attr, listed, blocked⟩)⟩
    | _ => exact ⟨by simp [identifiers, Node.kind], by simp [attributes, Node.kind]⟩

variable (library config)

/-- A tree that nothing is reported for is clean, exactly if it breaks a rule after all or holds no
blocked name where no method looks. -/
theorem clean_iff (tree : Node) : (violations library config tree = [] → Clean tree) ↔
    (∃ part ∈ tree.parts false, Breaks library config part.1 part.2) ∨ UnvisitedClean tree := by
  constructor
  · intro covered
    by_cases breaks : ∃ part ∈ tree.parts false, Breaks library config part.1 part.2
    · exact .inl breaks
    · have clean := covered (violations_eq_nil_iff.mpr fun part listed broken =>
        breaks ⟨part, listed, broken⟩)
      exact .inr fun part listed name unseen =>
        (clean part listed).1 name (unvisited_subset unseen)
  · rintro (⟨part, listed, broken⟩ | unseen) unreported
    · exact absurd broken (violations_eq_nil_iff.mp unreported part listed)
    · intro part listed
      exact clean_of_not_breaks (violations_eq_nil_iff.mp unreported part listed) (unseen part listed)

/-- `match items: case __builtins__: pass` -/
def capture : Node :=
  .node .module 1 [(.body, .node .match_ 1 [
    (.subject, .node (.name "items") 1 [(.ctx, .node .exprContext 1 [])]),
    (.cases, .node .matchCase 2 [
      (.pattern, .node (.matchAs (some "__builtins__")) 2 []),
      (.body, .node .pass 3 [])])])]

theorem not_clean_capture : ¬ (violations ⟨fun _ => false, []⟩ ⟨∅, ∅⟩ capture = [] → Clean capture) := by
  intro covered
  have clean := covered (by decide)
  have pattern : (false, Node.node (.matchAs (some "__builtins__")) 2 []) ∈ capture.parts false := by
    simp [capture, Node.parts, partsOfChildren, Node.funcIndex, Node.kind]
  exact (clean _ pattern).1 "__builtins__" (by decide) (by decide)

end Coverage

end N8n.SecurityValidator
