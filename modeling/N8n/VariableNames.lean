import Mathlib
import N8n.DecimalOrder
import N8n.JsFragment
import N8n.SdkValidators

/-! The names of variables in generated code. Names of different nodes differ always; a name is usable
unless the node name spells a word that the list of reserved keywords lacks. -/

namespace N8n.Codegen

open DecimalOrder (freshName freshName_spec)
open List

def RESERVED_KEYWORDS : List String :=
  ["break", "case", "catch", "class", "const", "continue", "debugger", "default", "delete", "do", "else",
    "export", "extends", "finally", "for", "function", "if", "import", "in", "instanceof", "let", "new",
    "return", "static", "super", "switch", "this", "throw", "try", "typeof", "var", "void", "while", "with",
    "yield", "null", "true", "false", "undefined", "workflow", "trigger", "node", "merge", "ifElse",
    "switchCase", "splitInBatches", "sticky", "languageModel", "tool", "memory", "outputParser",
    "textSplitter", "embeddings", "vectorStore", "retriever", "document", "eval", "Function", "require",
    "process", "global", "globalThis", "window", "setTimeout", "setInterval", "setImmediate", "clearTimeout",
    "clearInterval", "clearImmediate", "module", "exports", "Buffer", "Reflect", "Proxy"]

/-- A node name is a list of UTF-16 code units. -/
abbrev NodeName := List UInt16

section ToVarName

def isWordUnit (unit : UInt16) : Bool := unit.toNat < 128 && (Char.ofNat unit.toNat).isAlphanum

/-- `/[^a-zA-Z0-9]/g`. -/
def replaceUnit (unit : UInt16) : Char := if isWordUnit unit then Char.ofNat unit.toNat else '_'

/-- `.replace(/_+/g, '_')`. -/
def squeeze : List Char → List Char
  | [] => []
  | c :: text => if c = '_' ∧ (squeeze text).head? = some '_' then squeeze text else c :: squeeze text

def trimEnd (text : List Char) : List Char := if text.getLast? = some '_' then text.dropLast else text

def lowerFirst : List Char → List Char
  | [] => []
  | c :: text => (if c.isUpper then c.toLower else c) :: text

def base36Digit (digit : ℕ) : Char := Char.ofNat (if digit < 10 then 48 + digit else 87 + digit)

def hashFallbackName (nodeName : NodeName) : String :=
  let hash := nodeName.foldl (fun (hash : BitVec 32) unit => (hash <<< 5) - hash + BitVec.ofNat 32 unit.toNat) 0
  let digits := (Nat.digits 36 hash.toInt.natAbs).reverse.map base36Digit
  "node_" ++ String.ofList (if digits = [] then ['0'] else digits)

/-- An underscore in front of a digit, and none in front of a letter. -/
def adjust (varName : List Char) : List Char :=
  let varName := if varName.head?.any JsTokens.isDigit then '_' :: varName else varName
  match varName with
  | '_' :: c :: rest => if c.isAlpha then c :: rest else '_' :: c :: rest
  | _ => varName

def toVarName (nodeName : NodeName) : String :=
  let varName := lowerFirst (trimEnd (squeeze (nodeName.map replaceUnit)))
  if varName = [] ∨ varName = ['_'] then hashFallbackName nodeName
  else
    let name := String.ofList (adjust varName)
    if name ∈ RESERVED_KEYWORDS then name ++ "_node" else name

end ToVarName

structure VarNameContext where
  nodeNameToVarName : OrderedMap NodeName String := .empty
  usedVarNames : List String := []

def getUniqueVarName (nodeName : NodeName) (ctx : VarNameContext) : String × VarNameContext :=
  match ctx.nodeNameToVarName.get nodeName with
  | some varName => (varName, ctx)
  | none =>
    let varName := freshName (toVarName nodeName) ctx.usedVarNames
    (varName, ⟨ctx.nodeNameToVarName.set nodeName varName, varName :: ctx.usedVarNames⟩)

/-- The calls for some node names, with what they give. -/
def getVarNames : List NodeName → VarNameContext → List (NodeName × String)
  | [], _ => []
  | nodeName :: rest, ctx =>
    let (varName, ctx) := getUniqueVarName nodeName ctx
    (nodeName, varName) :: getVarNames rest ctx

/-! ## Usable names -/

/-- The name of a constant in a module that the interpreter declares. Modules are strict. -/
def usable (name : String) : Bool :=
  JsFragment.isPlainName name.toList && !JsFragment.reservedWords.contains name.toList &&
    !(["arguments", "eval"].contains name) && (!Sdk.isAllowedSDKFunction name || Sdk.isAutoRenameableSDKFunction name)

/-- The words that are not usable, but not reserved keywords here either. -/
def unlistedWords : List String :=
  ["enum", "await", "implements", "interface", "package", "private", "protected", "public", "arguments",
    "placeholder", "newCredential", "nextBatch", "fromAi", "nodeJson"]

/-- The name is the word but for what is neither letter nor digit around it. Where nothing stands in front,
the first letter may be a capital. -/
def Spells (nodeName : NodeName) (word : List Char) : Prop :=
  ∃ before after text, nodeName.map replaceUnit = List.replicate before '_' ++ (text ++ List.replicate after '_') ∧
    (text = word ∨ before = 0 ∧ lowerFirst text = word)

theorem unlisted_of_not_usable {name : String} (plain : JsFragment.isPlainName name.toList = true)
    (free : name ∉ RESERVED_KEYWORDS) (bad : usable name = false) : name ∈ unlistedWords := by
  have words : ∀ w ∈ JsFragment.reservedWords.map String.ofList ++ ["arguments", "eval"] ++
      Sdk.ALLOWED_SDK_FUNCTIONS.filter (!Sdk.isAutoRenameableSDKFunction ·), w ∉ RESERVED_KEYWORDS → w ∈ unlistedWords := by
    decide +kernel
  refine words name ?_ free
  simp only [usable, plain, Bool.true_and, Bool.and_eq_false_iff, Bool.not_eq_false', Bool.or_eq_false_iff] at bad
  rcases bad with (reserved | binding) | ⟨allowed, kept⟩
  · refine mem_append_left _ (mem_append_left _ (List.mem_map.mpr ⟨_, contains_iff_mem.mp reserved, ?_⟩))
    exact String.ofList_toList
  · exact mem_append_left _ (mem_append_right _ (contains_iff_mem.mp binding))
  · refine mem_append_right _ (mem_filter.mpr ⟨?_, by simpa using kept⟩)
    simpa [Sdk.isAllowedSDKFunction] using allowed

/-! ## Words -/

section Words

variable {word text rest : List Char} {nodeName : NodeName} {c : Char}

theorem unlistedWords_spec : ∀ w ∈ unlistedWords, w ∉ RESERVED_KEYWORDS ∧ usable w = false ∧
    w.toList ≠ [] ∧ lowerFirst w.toList = w.toList ∧ w.toList.all Char.isAlpha = true := by
  decide +kernel

theorem squeeze_eq_cons (other : c ≠ '_') :
    squeeze text = c :: rest ↔ ∃ behind, text = c :: behind ∧ squeeze behind = rest := by
  constructor
  · induction text with
    | nil => exact nofun
    | cons d text ih =>
      intro same
      rw [squeeze] at same
      split_ifs at same with doubled
      · rw [same] at doubled
        exact absurd (Option.some.inj doubled.2) other
      · obtain ⟨rfl, rfl⟩ := List.cons.inj same
        exact ⟨text, rfl, rfl⟩
  · rintro ⟨behind, rfl, rfl⟩
    rw [squeeze, if_neg fun doubled => other doubled.1]

theorem squeeze_eq_word (plain : ∀ c ∈ word, c ≠ '_') :
    squeeze text = word ++ rest ↔ ∃ behind, text = word ++ behind ∧ squeeze behind = rest := by
  induction word generalizing text with
  | nil => simp
  | cons c word ih =>
    obtain ⟨head, tail⟩ := forall_mem_cons.mp plain
    rw [cons_append, squeeze_eq_cons head]
    constructor
    · rintro ⟨behind, rfl, same⟩
      obtain ⟨last, rfl, final⟩ := (ih tail).mp same
      exact ⟨last, rfl, final⟩
    · rintro ⟨last, rfl, same⟩
      exact ⟨word ++ last, rfl, (ih tail).mpr ⟨last, rfl, same⟩⟩

theorem squeeze_blank : squeeze text = [] ∨ squeeze text = ['_'] ↔ ∃ count, text = List.replicate count '_' := by
  simp only [eq_replicate_iff, exists_eq_left']
  induction text with
  | nil => simp [squeeze]
  | cons c text ih =>
    rw [forall_mem_cons, ← ih, squeeze]
    split_ifs with doubled
    · simp [doubled.1]
    · simp only [false_or, List.cons.injEq]
      refine and_congr_right fun blank => ⟨.inl, fun either => either.resolve_right fun one => ?_⟩
      exact doubled ⟨blank, by rw [one]; rfl⟩

theorem squeeze_led (starts : rest.head? ≠ some '_') : squeeze text = '_' :: rest ↔
    ∃ count behind, text = List.replicate (count + 1) '_' ++ behind ∧ squeeze behind = rest := by
  constructor
  · induction text with
    | nil => exact nofun
    | cons c text ih =>
      intro same
      rw [squeeze] at same
      split_ifs at same with doubled
      · obtain ⟨count, behind, rfl, left⟩ := ih same
        exact ⟨count + 1, behind, by rw [doubled.1]; rfl, left⟩
      · obtain ⟨rfl, rfl⟩ := List.cons.inj same
        exact ⟨0, text, rfl, rfl⟩
  · rintro ⟨count, behind, rfl, rfl⟩
    induction count with
    | zero => exact if_neg fun doubled => starts doubled.2
    | succ count ih =>
      rw [replicate_succ, cons_append, squeeze, ih, if_pos ⟨rfl, rfl⟩]

theorem trimEnd_eq_iff (ends : word.getLast? ≠ some '_') : trimEnd text = word ↔ text = word ∨ text = word ++ ['_'] := by
  unfold trimEnd
  constructor
  · split_ifs with last
    · rintro rfl
      exact .inr (dropLast_append_getLast? '_' last).symm
    · exact .inl
  · rintro (rfl | rfl)
    · rw [if_neg ends]
    · simp

theorem isUpper_iff : c.isUpper = true ↔ 65 ≤ c.toNat ∧ c.toNat ≤ 90 := by
  simp [Char.isUpper, UInt32.le_iff_toNat_le, ← Char.toNat_val]

theorem isAlpha_iff : c.isAlpha = true ↔ 65 ≤ c.toNat ∧ c.toNat ≤ 90 ∨ 97 ≤ c.toNat ∧ c.toNat ≤ 122 := by
  simp [Char.isAlpha, Char.isUpper, Char.isLower, UInt32.le_iff_toNat_le, ← Char.toNat_val]

theorem isAlphanum_iff : c.isAlphanum = true ↔ c.isAlpha = true ∨ 48 ≤ c.toNat ∧ c.toNat ≤ 57 := by
  simp [Char.isAlphanum, Char.isDigit, UInt32.le_iff_toNat_le, ← Char.toNat_val]

theorem toNat_toLower (upper : c.isUpper = true) : c.toLower.toNat = c.toNat + 32 := by
  have bounds := isUpper_iff.mp upper
  rw [Char.toLower, dif_pos (by simpa [Char.isUpper] using upper)]
  change (c.val + 32).toNat = c.toNat + 32
  rw [UInt32.toNat_add, Char.toNat_val]
  exact Nat.mod_eq_of_lt (by simp; omega)

theorem alpha_ne_underscore (alpha : c.isAlpha = true) : c ≠ '_' := by
  rintro rfl
  cases alpha

theorem letters_of_lowerFirst (letters : ∀ c ∈ word, c.isAlpha = true) (same : lowerFirst text = word) :
    ∀ c ∈ text, c.isAlpha = true := by
  cases text with
  | nil => exact nofun
  | cons c text =>
    rw [← same, lowerFirst, forall_mem_cons] at letters
    refine forall_mem_cons.mpr ⟨?_, letters.2⟩
    by_cases upper : c.isUpper = true
    · exact isAlpha_iff.mpr (.inl (isUpper_iff.mp upper))
    · simpa [upper] using letters.1

theorem lowerFirst_eq_underscore : lowerFirst text = '_' :: rest ↔ text = '_' :: rest := by
  cases text with
  | nil => simp [lowerFirst]
  | cons c text =>
    rw [lowerFirst]
    split_ifs with upper
    · have bounds := isUpper_iff.mp upper
      have lower := toNat_toLower upper
      have left : c.toLower ≠ '_' := fun same => by
        rw [same] at lower
        change 95 = _ at lower
        omega
      have right : c ≠ '_' := fun same => by
        rw [same] at bounds
        exact absurd bounds (by decide)
      simp [left, right]
    · rfl

theorem adjust_eq_iff (letters : ∀ c ∈ word, c.isAlpha = true) (nonempty : word ≠ []) :
    adjust text = word ↔ text = word ∨ text = '_' :: word := by
  obtain ⟨c, word, rfl⟩ := exists_cons_of_ne_nil nonempty
  have alpha := letters c mem_cons_self
  have different := alpha_ne_underscore alpha
  cases text with
  | nil => simp [adjust]
  | cons d text =>
    by_cases digit : JsTokens.isDigit d = true
    · have bounds : 48 ≤ d.toNat ∧ d.toNat ≤ 57 := by
        simpa [JsTokens.isDigit, Char.le_def, UInt32.le_iff_toNat_le] using digit
      have notAlpha : d.isAlpha = false := by
        rw [← Bool.not_eq_true, isAlpha_iff]
        omega
      have other : d ≠ c := fun same => by simp [same, alpha] at notAlpha
      have blank : d ≠ '_' := fun same => by simp [same, JsTokens.isDigit] at digit
      simp [adjust, digit, notAlpha, different.symm, other, blank]
    · by_cases blank : d = '_'
      · subst blank
        cases text with
        | nil =>
          rw [show adjust ['_'] = ['_'] from rfl]
          simp [different.symm]
        | cons e text =>
          by_cases letter : e.isAlpha = true
          · simp [adjust, digit, letter, different.symm]
          · have other : e ≠ c := fun same => letter (same ▸ alpha)
            simp [adjust, digit, letter, different.symm, other]
      · simp [adjust, digit, blank]

theorem toVarName_eq_iff_adjust (letters : ∀ c ∈ word, c.isAlpha = true) (nonempty : word ≠ [])
    (free : String.ofList word ∉ RESERVED_KEYWORDS) : toVarName nodeName = String.ofList word ↔
      adjust (lowerFirst (trimEnd (squeeze (nodeName.map replaceUnit)))) = word := by
  have blank : '_' ∉ word := fun member => absurd (letters _ member) nofun
  rw [toVarName]
  generalize lowerFirst (trimEnd (squeeze (nodeName.map replaceUnit))) = varName
  dsimp only
  split_ifs with empty reserved
  · constructor
    · intro same
      refine absurd ?_ blank
      rw [← String.toList_ofList (l := word), ← same, hashFallbackName]
      simp
    · rintro rfl
      rcases empty with rfl | rfl
      · exact absurd rfl nonempty
      · exact absurd mem_cons_self blank
  · constructor
    · intro same
      refine absurd ?_ blank
      rw [← String.toList_ofList (l := word), ← same]
      simp
    · rintro rfl
      exact absurd reserved free
  · exact String.ofList_inj

/-- What is left of a text in front of the underscores at its end. -/
theorem trimEnd_squeeze (letters : ∀ c ∈ word, c.isAlpha = true) (nonempty : word ≠ []) :
    (trimEnd (squeeze text) = word ↔ ∃ after, text = word ++ List.replicate after '_') ∧
    (trimEnd (squeeze text) = '_' :: word ↔
      ∃ before after, text = List.replicate (before + 1) '_' ++ (word ++ List.replicate after '_')) := by
  have plain : ∀ c ∈ word, c ≠ '_' := fun c member => alpha_ne_underscore (letters c member)
  have ends : ∀ before, (before ++ word).getLast? ≠ some '_' := fun before last => by
    rw [getLast?_append_of_ne_nil _ nonempty] at last
    exact plain _ (mem_of_getLast? last) rfl
  have starts : ∀ rest : List Char, (word ++ rest).head? ≠ some '_' := fun rest first => by
    rw [head?_append_of_ne_nil _ nonempty] at first
    exact plain _ (mem_of_head? first) rfl
  have tail : ∀ behind, squeeze behind = word ++ [] ∨ squeeze behind = word ++ ['_'] ↔
      ∃ after, behind = word ++ List.replicate after '_' := fun behind => by
    rw [squeeze_eq_word plain, squeeze_eq_word plain, ← exists_or]
    simp only [← and_or_left, squeeze_blank]
    exact ⟨fun ⟨_, same, after, blank⟩ => ⟨after, blank ▸ same⟩, fun ⟨after, same⟩ => ⟨_, same, after, rfl⟩⟩
  constructor
  · refine (trimEnd_eq_iff (ends [])).trans ?_
    rw [← tail, append_nil]
    rfl
  · have bare : squeeze text = '_' :: (word ++ []) ↔ _ := squeeze_led (starts [])
    have trailed : squeeze text = '_' :: (word ++ ['_']) ↔ _ := squeeze_led (starts ['_'])
    rw [append_nil] at bare
    refine (trimEnd_eq_iff (ends ['_'])).trans ((or_congr bare trailed).trans ?_)
    simp only [← exists_or, ← and_or_left]
    constructor
    · rintro ⟨before, behind, rfl, left⟩
      obtain ⟨after, rfl⟩ := (tail behind).mp (by simpa using left)
      exact ⟨before, after, rfl⟩
    · rintro ⟨before, after, rfl⟩
      exact ⟨before, _, rfl, by simpa using (tail _).mpr ⟨after, rfl⟩⟩

/-- Which node names come to a word that is not reserved. -/
theorem toVarName_eq_iff (letters : ∀ c ∈ word, c.isAlpha = true) (nonempty : word ≠ []) (low : lowerFirst word = word)
    (free : String.ofList word ∉ RESERVED_KEYWORDS) :
    toVarName nodeName = String.ofList word ↔ Spells nodeName word := by
  have filled : ∀ text, lowerFirst text = word → text ≠ [] := fun text same empty => nonempty (by rw [← same, empty]; rfl)
  rw [toVarName_eq_iff_adjust letters nonempty free, adjust_eq_iff letters nonempty, lowerFirst_eq_underscore,
    (trimEnd_squeeze letters nonempty).2]
  constructor
  · rintro (plain | ⟨before, after, led⟩)
    · obtain ⟨after, split⟩ := (trimEnd_squeeze (letters_of_lowerFirst letters plain) (filled _ plain)).1.mp rfl
      exact ⟨0, after, _, split, .inr ⟨rfl, plain⟩⟩
    · exact ⟨before + 1, after, word, led, .inl rfl⟩
  · rintro ⟨before, after, text, split, which⟩
    cases before with
    | zero =>
      have same : lowerFirst text = word := which.elim (fun same => same ▸ low) And.right
      left
      rw [(trimEnd_squeeze (letters_of_lowerFirst letters same) (filled _ same)).1.mpr ⟨after, split⟩, same]
    | succ before =>
      obtain rfl : text = word := which.resolve_right nofun
      exact .inr ⟨before, after, split⟩

end Words

section Runs

variable {nodeName other : NodeName} {varName : String} {ctx : VarNameContext} {nodeNames : List NodeName}

structure VarNameContext.Sound (ctx : VarNameContext) : Prop where
  used : ∀ varName, varName ∈ ctx.usedVarNames ↔ ∃ nodeName, ctx.nodeNameToVarName.get nodeName = some varName
  apart : ∀ one two varName, ctx.nodeNameToVarName.get one = some varName →
    ctx.nodeNameToVarName.get two = some varName → one = two
  counted : ∀ nodeName varName, ctx.nodeNameToVarName.get nodeName = some varName → toVarName nodeName ∈ ctx.usedVarNames ∧
    (varName = toVarName nodeName ∨ ∃ counter : ℕ, varName = toVarName nodeName ++ toString counter)

theorem getUniqueVarName_spec (sound : ctx.Sound) (nodeName : NodeName) :
    (getUniqueVarName nodeName ctx).2.Sound ∧ ∀ other varName,
      (getUniqueVarName nodeName ctx).2.nodeNameToVarName.get other = some varName ↔
        ctx.nodeNameToVarName.get other = some varName ∨
          other = nodeName ∧ varName = (getUniqueVarName nodeName ctx).1 := by
  unfold getUniqueVarName
  split
  · rename_i old found
    refine ⟨sound, fun other varName => ⟨.inl, ?_⟩⟩
    rintro (kept | ⟨rfl, rfl⟩)
    · exact kept
    · exact found
  · rename_i absent
    obtain ⟨free, form⟩ := freshName_spec (toVarName nodeName) ctx.usedVarNames
    generalize freshName (toVarName nodeName) ctx.usedVarNames = fresh at free form
    have entries : ∀ other varName, (ctx.nodeNameToVarName.set nodeName fresh).get other = some varName ↔
        ctx.nodeNameToVarName.get other = some varName ∨ other = nodeName ∧ varName = fresh := by
      intro other varName
      rw [OrderedMap.get_set]
      split_ifs with same
      · simp [same, absent, eq_comm]
      · simp [same]
    refine ⟨⟨fun varName => ?_, fun one two varName first second => ?_, fun other varName found => ?_⟩, entries⟩
    · simp only [mem_cons, sound.used, entries, exists_or, exists_eq_left]
      exact or_comm
    · rcases (entries one varName).mp first with first | ⟨here, same⟩
      · rcases (entries two varName).mp second with second | ⟨_, same⟩
        · exact sound.apart one two varName first second
        · exact absurd ((sound.used fresh).mpr ⟨one, same ▸ first⟩) free
      · rcases (entries two varName).mp second with second | ⟨there, _⟩
        · exact absurd ((sound.used fresh).mpr ⟨two, same ▸ second⟩) free
        · exact here.trans there.symm
    · rcases (entries other varName).mp found with old | ⟨rfl, rfl⟩
      · exact (sound.counted other varName old).imp (mem_cons_of_mem _) id
      · rcases form with same | ⟨taken, counter⟩
        · exact ⟨same ▸ mem_cons_self, .inl same⟩
        · exact ⟨mem_cons_of_mem _ taken, .inr counter⟩

/-- The calls for some nodes: a context behind them that has just these names besides the old ones. -/
theorem getVarNames_spec (sound : ctx.Sound) (nodeNames : List NodeName) : ∃ last : VarNameContext, last.Sound ∧
    ∀ nodeName varName, last.nodeNameToVarName.get nodeName = some varName ↔
      ctx.nodeNameToVarName.get nodeName = some varName ∨ (nodeName, varName) ∈ getVarNames nodeNames ctx := by
  induction nodeNames generalizing ctx with
  | nil => exact ⟨ctx, sound, fun _ _ => by simp [getVarNames]⟩
  | cons nodeName rest ih =>
    obtain ⟨next, entries⟩ := getUniqueVarName_spec sound nodeName
    obtain ⟨last, soundLast, all⟩ := ih next
    refine ⟨last, soundLast, fun other varName => ?_⟩
    rw [all, entries, getVarNames, mem_cons, Prod.mk.injEq, or_assoc]

theorem map_fst_getVarNames (nodeNames : List NodeName) (ctx : VarNameContext) :
    (getVarNames nodeNames ctx).map Prod.fst = nodeNames := by
  induction nodeNames generalizing ctx with
  | nil => rfl
  | cons nodeName rest ih => simp [getVarNames, ih]

end Runs

section Identifiers

open JsFragment (isPlainName isAsciiLetter)

variable {text : List Char} {name : String} {nodeName : NodeName} {c : Char}

def isNamePart (c : Char) : Bool := isAsciiLetter c || JsTokens.isDigit c

theorem isAsciiLetter_iff : isAsciiLetter c = true ↔ c.isAlpha = true ∨ c = '_' ∨ c = '$' := by
  rw [isAlpha_iff]
  simp [isAsciiLetter, Char.le_def, UInt32.le_iff_toNat_le, ← Char.toNat_val]
  tauto

theorem isNamePart_of_isAlphanum (alnum : c.isAlphanum = true) : isNamePart c = true := by
  rw [isNamePart, Bool.or_eq_true, isAsciiLetter_iff]
  exact (isAlphanum_iff.mp alnum).imp .inl fun digit => by
    simpa [JsTokens.isDigit, Char.le_def, UInt32.le_iff_toNat_le, ← Char.toNat_val] using digit

theorem isPlainName_cons (first : isAsciiLetter c = true) (parts : ∀ d ∈ text, isNamePart d = true) :
    isPlainName (c :: text) = true := by
  simpa [isPlainName, first, isNamePart] using parts

theorem isPlainName_append {more : List Char} (plain : isPlainName text = true) (parts : ∀ c ∈ more, isNamePart c = true) :
    isPlainName (text ++ more) = true := by
  cases text with
  | nil => cases plain
  | cons c rest =>
    simp only [isPlainName, head?_cons, Option.any_some, Bool.and_eq_true, all_eq_true] at plain
    refine isPlainName_cons plain.1 fun d member => ?_
    exact (mem_append.mp member).elim (fun old => plain.2 d (mem_cons_of_mem _ old)) (parts d)

theorem isPlainName_adjust (nonempty : text ≠ []) (parts : ∀ c ∈ text, isNamePart c = true) :
    isPlainName (adjust text) = true := by
  have led : isPlainName (if text.head?.any JsTokens.isDigit then '_' :: text else text) = true := by
    obtain ⟨c, rest, rfl⟩ := exists_cons_of_ne_nil nonempty
    obtain ⟨head, tail⟩ := forall_mem_cons.mp parts
    split_ifs with digit
    · exact isPlainName_cons rfl parts
    · refine isPlainName_cons ((Bool.or_eq_true _ _).mp head |>.resolve_right ?_) tail
      simpa using digit
  unfold adjust
  generalize (if text.head?.any JsTokens.isDigit then '_' :: text else text) = varName at led
  dsimp only
  split
  · rename_i c rest
    split_ifs with letter
    · simp only [isPlainName, all_cons, Bool.and_eq_true] at led ⊢
      exact ⟨isAsciiLetter_iff.mpr (.inl letter), led.2.2⟩
    · exact led
  · exact led

theorem isNamePart_of_mem {c : Char} (member : c ∈ lowerFirst (trimEnd (squeeze (nodeName.map replaceUnit)))) :
    isNamePart c = true := by
  have squeezed : ∀ text : List Char, squeeze text ⊆ text := by
    intro text
    induction text with
    | nil => exact List.Subset.refl _
    | cons c text ih =>
      rw [squeeze]
      split_ifs
      · exact subset_cons_of_subset _ ih
      · exact cons_subset_cons _ ih
  have parts : ∀ c ∈ trimEnd (squeeze (nodeName.map replaceUnit)), isNamePart c = true := by
    intro c inside
    have back : trimEnd (squeeze (nodeName.map replaceUnit)) ⊆ squeeze (nodeName.map replaceUnit) := by
      unfold trimEnd
      split_ifs
      · exact dropLast_subset _
      · exact List.Subset.refl _
    obtain ⟨u, _, rfl⟩ := List.mem_map.mp (squeezed _ (back inside))
    unfold replaceUnit
    split_ifs with word
    · exact isNamePart_of_isAlphanum (Bool.and_eq_true_iff.mp word).2
    · rfl
  generalize trimEnd (squeeze (nodeName.map replaceUnit)) = text at member parts
  cases text with
  | nil => cases member
  | cons d text =>
    rcases mem_cons.mp member with rfl | later
    · split_ifs with upper
      · have bounds := isUpper_iff.mp upper
        have lower := toNat_toLower upper
        exact isNamePart_of_isAlphanum (isAlphanum_iff.mpr (.inl (isAlpha_iff.mpr (by omega))))
      · exact parts d mem_cons_self
    · exact parts c (mem_cons_of_mem _ later)

theorem toVarName_spec (nodeName : NodeName) :
    isPlainName (toVarName nodeName).toList = true ∧ toVarName nodeName ∉ RESERVED_KEYWORDS := by
  have clean : ∀ w ∈ RESERVED_KEYWORDS, '_' ∉ w.toList := by decide +kernel
  have parts := fun c => @isNamePart_of_mem nodeName c
  unfold toVarName
  generalize lowerFirst (trimEnd (squeeze (nodeName.map replaceUnit))) = varName at parts
  dsimp only
  split_ifs with empty reserved
  · rw [hashFallbackName, show "node_" = String.ofList ['n', 'o', 'd', 'e', '_'] from rfl, ← String.ofList_append]
    refine ⟨?_, fun listed => clean _ listed (by simp)⟩
    rw [String.toList_ofList]
    refine isPlainName_cons rfl fun c member => ?_
    rcases mem_append.mp member with front | digits
    · exact List.all_eq_true.mp (by decide : ['o', 'd', 'e', '_'].all isNamePart = true) c front
    have all : ∀ digit < 36, isNamePart (base36Digit digit) = true := by decide +kernel
    split_ifs at digits
    · exact mem_singleton.mp digits ▸ rfl
    · obtain ⟨digit, listed, rfl⟩ := List.mem_map.mp digits
      exact all digit (Nat.digits_lt_base (by decide) (mem_reverse.mp listed))
  · refine ⟨?_, fun listed => clean _ listed (by simp)⟩
    rw [String.toList_append, String.toList_ofList]
    exact isPlainName_append (isPlainName_adjust (fun none => empty (.inl none)) parts)
      (List.all_eq_true.mp (by decide : ['_', 'n', 'o', 'd', 'e'].all isNamePart = true))
  · refine ⟨?_, reserved⟩
    rw [String.toList_ofList]
    exact isPlainName_adjust (fun none => empty (.inl none)) parts

theorem usable_or_unlisted (form : name = toVarName nodeName ∨
    ∃ counter : ℕ, name = toVarName nodeName ++ toString counter) :
    usable name = true ∨ name = toVarName nodeName ∧ name ∈ unlistedWords := by
  obtain ⟨plain, free⟩ := toVarName_spec nodeName
  rcases form with rfl | ⟨counter, rfl⟩
  · by_cases good : usable (toVarName nodeName) = true
    · exact .inl good
    · exact .inr ⟨rfl, unlisted_of_not_usable plain free (by simpa using good)⟩
  · left
    by_contra bad
    have clean : ∀ w ∈ RESERVED_KEYWORDS ++ unlistedWords, w.toList.all (!·.isDigit) = true := by decide +kernel
    have digits : ∀ c ∈ (toString counter).toList, c.isDigit = true := by
      rw [Nat.toString_eq_repr, Nat.toList_repr]
      exact fun c member => Nat.isDigit_of_mem_toDigits (by decide) (by decide) member
    obtain ⟨c, member⟩ : ∃ c, c ∈ (toString counter).toList := by
      rw [Nat.toString_eq_repr, Nat.toList_repr]
      exact exists_mem_of_length_pos Nat.length_toDigits_pos
    have missing : toVarName nodeName ++ toString counter ∉ RESERVED_KEYWORDS ++ unlistedWords := fun listed => by
      refine absurd (List.all_eq_true.mp (clean _ listed) c ?_) (by simp [digits c member])
      rw [String.toList_append]
      exact mem_append_right _ member
    refine missing (mem_append_right _ (unlisted_of_not_usable ?_
      (fun listed => missing (mem_append_left _ listed)) (by simpa using bad)))
    rw [String.toList_append]
    exact isPlainName_append plain fun c member => isNamePart_of_isAlphanum
      (by rw [Char.isAlphanum, digits c member, Bool.or_true])

end Identifiers

/-- Different nodes get different names, a node gets the same name again, and every name is usable. -/
theorem getVarNames_usable_iff (nodeNames : List NodeName) :
    (∀ one ∈ getVarNames nodeNames {}, (∀ two ∈ getVarNames nodeNames {}, one.1 = two.1 ↔ one.2 = two.2) ∧
      usable one.2 = true) ↔
    ∀ nodeName ∈ nodeNames, ∀ word ∈ unlistedWords, ¬Spells nodeName word.toList := by
  have empty : ({} : VarNameContext).Sound := ⟨by simp, nofun, nofun⟩
  obtain ⟨last, sound, entries⟩ := getVarNames_spec empty nodeNames
  have listed : ∀ nodeName varName, last.nodeNameToVarName.get nodeName = some varName ↔
      (nodeName, varName) ∈ getVarNames nodeNames {} := fun nodeName varName => by simp [entries]
  have given : ∀ nodeName, nodeName ∈ nodeNames ↔ ∃ varName, (nodeName, varName) ∈ getVarNames nodeNames {} := by
    intro nodeName
    conv_lhs => rw [← map_fst_getVarNames nodeNames {}]
    simp
  have spells : ∀ word ∈ unlistedWords, ∀ nodeName, toVarName nodeName = word ↔ Spells nodeName word.toList := by
    intro word member nodeName
    obtain ⟨free, _, nonempty, low, letters⟩ := unlistedWords_spec word member
    simpa using toVarName_eq_iff (List.all_eq_true.mp letters) nonempty low (by simpa using free)
  constructor
  · intro good nodeName inside word member spelled
    obtain ⟨varName, given⟩ := (given nodeName).mp inside
    have taken := (sound.counted nodeName varName ((listed _ _).mpr given)).1
    rw [(spells word member nodeName).mpr spelled, sound.used] at taken
    obtain ⟨other, found⟩ := taken
    have bad := (unlistedWords_spec word member).2.1
    rw [(good _ ((listed _ _).mp found)).2] at bad
    cases bad
  · rintro clean ⟨one, name⟩ first
    have found := (listed one name).mpr first
    refine ⟨fun ⟨two, other⟩ second => ⟨?_, fun same => ?_⟩, ?_⟩
    · rintro rfl
      exact Option.some.inj (found.symm.trans ((listed _ _).mpr second))
    · obtain rfl : name = other := same
      exact sound.apart one two name found ((listed _ _).mpr second)
    · refine (usable_or_unlisted (sound.counted one name found).2).resolve_right fun ⟨same, member⟩ => ?_
      exact clean one ((given one).mpr ⟨name, first⟩) name member ((spells name member one).mp same.symm)

/-- `Enum` is a fine name of a node. -/
theorem enum_not_usable : ¬∀ nodeNames : List NodeName, ∀ one ∈ getVarNames nodeNames {},
    (∀ two ∈ getVarNames nodeNames {}, one.1 = two.1 ↔ one.2 = two.2) ∧ usable one.2 = true := by
  intro all
  exact absurd (all [[69, 110, 117, 109]] ([69, 110, 117, 109], "enum") (by decide +kernel)).2 (by decide +kernel)

end N8n.Codegen
