import N8n.ReferenceReading

/-! Renaming in an expression replaces every match of one of the patterns where it stands, as long
as each pass, in the text that the passes before it leave, takes its own matches and no others. -/

namespace N8n.NodeReferences

open ReplaceAll List Option AccessPattern

def readAny (name s : List Char) : Option (AccessPattern × Reference) :=
  accessPatterns.findSome? fun access => (readReference name access s).map fun r => (access, r)

def size (match' : AccessPattern × Reference) : ℕ := match'.2.text.length

def references (name expression : List Char) : List (Piece Char (AccessPattern × Reference)) :=
  pieces (readAny name) size 0 expression

/-- What is written for a match; it may depend on the text behind the match. -/
abbrev Block := AccessPattern → Reference → List Char → List Char

/-- The expression with every match replaced. -/
def rewritten (name : List Char) (block : Block) (expression : List Char) : List Char :=
  replaceAll (readAny name) size (fun m rest => block m.1 m.2 rest) expression

def unchanged : Block := fun _ r _ => r.text

def renamed (newName : List Char) (a : AccessPattern) (block : Block) : Block := fun b r rest =>
  if b = a then r.opening ++ quoteEscape newName ++ r.closing else block b r rest

section Any

variable {name s : List Char} {access : AccessPattern} {r : Reference}

theorem readAny_some (reads : readAny name s = some (access, r)) : readReference name access s = some r := by
  obtain ⟨access', _, found⟩ := exists_of_findSome?_eq_some reads
  obtain ⟨r', reads, same⟩ := map_eq_some_iff.mp found
  cases same
  exact reads

theorem readAny_sized {m : AccessPattern × Reference} (reads : readAny name s = some m) :
    0 < size m ∧ size m ≤ s.length := by
  obtain ⟨access, r⟩ := m
  obtain ⟨member, _, rest, rfl, _⟩ := readReference_some (readAny_some reads)
  obtain ⟨tail, opening⟩ := access.openings_marked _ member
  constructor
  · simp [size, Reference.text, opening]
  · simp [size]

theorem readAny_text {u : List Char}
    (reads : readAny name (u ++ s) = some (access, r)) (length : u.length = size (access, r)) : u = r.text := by
  obtain ⟨_, _, rest, same, _⟩ := readReference_some (readAny_some reads)
  exact (append_inj same length).1

theorem readAny_other {c : Char} (other : c ≠ '$') : readAny name (c :: s) = none := by
  cases reads : readAny name (c :: s) with
  | none => rfl
  | some m =>
    obtain ⟨access, r⟩ := m
    have matched := readAny_some reads
    rw [readReference_other other] at matched
    cases matched

end Any

/-! ## One pass after the other -/

section Passes

variable {name : List Char}

theorem references_induction (name : List Char) {motive : List Char → Prop} (nil : motive [])
    (plain : ∀ c s, readAny name (c :: s) = none → motive s → motive (c :: s))
    (taken : ∀ access r s, readAny name (r.text ++ s) = some (access, r) →
      readReference name access (r.text ++ s) = some r → motive s → motive (r.text ++ s))
    (s : List Char) : motive s := by
  refine pieces_induction (fun _ _ => readAny_sized) nil plain (fun u s m reads length _ ih => ?_) s
  obtain ⟨access, r⟩ := m
  obtain rfl := readAny_text reads length
  exact taken access r s reads (readAny_some reads) ih

variable {s : List Char} {c : Char} {access : AccessPattern} {r : Reference} {block : Block}

theorem rewritten_plain (unread : readAny name (c :: s) = none) :
    rewritten name block (c :: s) = c :: rewritten name block s := replaceAll_plain unread

theorem references_plain (unread : readAny name (c :: s) = none) :
    references name (c :: s) = .plain c s :: references name s := pieces_plain unread

theorem text_ne_nil (reads : readAny name (r.text ++ s) = some (access, r)) : r.text ≠ [] := by
  have positive := (readAny_sized reads).1
  intro empty
  simp [size, empty] at positive

theorem rewritten_taken (reads : readAny name (r.text ++ s) = some (access, r)) :
    rewritten name block (r.text ++ s) = block access r s ++ rewritten name block s :=
  replaceAll_taken reads rfl (text_ne_nil reads)

theorem references_taken (reads : readAny name (r.text ++ s) = some (access, r)) :
    references name (r.text ++ s) = .taken (access, r) s :: references name s :=
  pieces_taken reads rfl (text_ne_nil reads)

theorem rewritten_unchanged (s : List Char) : rewritten name unchanged s = s := by
  induction s using references_induction name with
  | nil => rfl
  | plain c s unread ih => rw [rewritten_plain unread, ih]
  | taken access r s reads matched ih => rw [rewritten_taken reads, ih, unchanged]

variable (name) in
/-- In the text in which blocks stand for the matches, the pattern takes those of its own kind and no others. -/
def TakesOwn (a : AccessPattern) (block : Block) : Piece Char (AccessPattern × Reference) → Prop
  | .plain c rest => readReference name a (c :: rewritten name block rest) = none
  | .taken (b, r) rest =>
    if b = a then readReference name a (r.text ++ rewritten name block rest) = some r
    else ∀ i < (block b r rest).length,
      readReference name a ((block b r rest).drop i ++ rewritten name block rest) = none

theorem pass_rewritten (newName : List Char) {a : AccessPattern} (here : ∀ r rest, block a r rest = r.text)
    (s : List Char) (takesOwn : ∀ piece ∈ references name s, TakesOwn name a block piece) :
    replaceAll (readReference name a) (fun r => r.text.length)
        (fun r _ => r.opening ++ quoteEscape newName ++ r.closing) (rewritten name block s) =
      rewritten name (renamed newName a block) s := by
  induction s using references_induction name with
  | nil => rfl
  | plain c s unread ih =>
    rw [references_plain unread, forall_mem_cons] at takesOwn
    have silent : readReference name a (c :: rewritten name block s) = none := takesOwn.1
    rw [rewritten_plain unread, rewritten_plain unread, replaceAll_plain silent, ih takesOwn.2]
  | taken b r s reads matched ih =>
    rw [references_taken reads, forall_mem_cons] at takesOwn
    obtain ⟨own, later⟩ := takesOwn
    rw [rewritten_taken reads, rewritten_taken reads, renamed]
    by_cases same : b = a
    · subst same
      rw [TakesOwn, if_pos rfl] at own
      rw [here, if_pos rfl, replaceAll_taken own rfl (text_ne_nil reads), ih later]
    · rw [TakesOwn, if_neg same] at own
      rw [if_neg same, replaceAll_through own, ih later]

end Passes

/-! ## The callback -/

/-- The references but those to items are renamed. -/
def standing (newName : List Char) : Block :=
  renamed newName .dot (renamed newName .node (renamed newName .call unchanged))

/-- Behind `$node.` the new name stands as it is, and what ends it is behind it. -/
def ReadsOwn (newName : List Char) (r : Reference) (rest : List Char) : Prop :=
  quoteEscape newName = newName ∧ readMember newName ('.' :: (newName ++ r.closing ++ rest)) ≠ none

instance (newName : List Char) (r : Reference) (rest : List Char) : Decidable (ReadsOwn newName r rest) :=
  inferInstanceAs (Decidable (_ ∧ _))

/-- The callback finds the new name nowhere, or first at its own place behind `$node`. -/
def Unread (name newName : List Char) : Piece Char (AccessPattern × Reference) → Prop
  | .plain c rest => readMember newName (c :: rewritten name (standing newName) rest) = none
  | .taken (access, r) rest => ∀ i < (standing newName access r rest).length,
      readMember newName ((standing newName access r rest).drop i ++ rewritten name (standing newName) rest) ≠ none →
      (access = .dot ∧ ReadsOwn newName r rest) ∧ 5 ≤ i

def called (newName : List Char) : Block := fun access r rest =>
  if access = .dot ∧ ReadsOwn newName r rest then
    ['$', 'n', 'o', 'd', 'e', '[', '"'] ++ newName ++ ['"', ']'] ++ r.closing
  else standing newName access r rest

section Called

variable {name newName s : List Char}

theorem readMember_name (newName s : List Char) :
    readMember newName ('.' :: (newName ++ s)) = s.head?.filter fun t => t = ' ' || t = '.' := by
  simp [readMember, show isLineTerminator '.' = false by decide]

theorem callback_taken {t : Char} (separator : t = ' ' ∨ t = '.') {emit : Char → List Char → List Char} :
    replaceAll (readMember newName) (fun _ => newName.length + 2) emit ('.' :: (newName ++ t :: s)) =
      emit t s ++ replaceAll (readMember newName) (fun _ => newName.length + 2) emit s := by
  have reads : readMember newName (('.' :: newName ++ [t]) ++ s) = some t := by
    have own := readMember_name newName (t :: s)
    simp only [head?_cons, filter_some] at own
    rcases separator with rfl | rfl <;> simpa using own
  rw [show '.' :: (newName ++ t :: s) = ('.' :: newName ++ [t]) ++ s by simp]
  exact replaceAll_taken reads (by simp) (by simp)

theorem callback_rewritten (s : List Char) (unread : ∀ piece ∈ references name s, Unread name newName piece) :
    replaceAll (readMember newName) (fun _ => newName.length + 2)
        (fun t _ => ['[', '"'] ++ quoteEscape newName ++ ['"', ']', t]) (rewritten name (standing newName) s) =
      rewritten name (called newName) s := by
  induction s using references_induction name with
  | nil => rfl
  | plain c s unmatched ih =>
    rw [references_plain unmatched, forall_mem_cons] at unread
    have silent : readMember newName (c :: rewritten name (standing newName) s) = none := unread.1
    rw [rewritten_plain unmatched, rewritten_plain unmatched, replaceAll_plain silent, ih unread.2]
  | taken access r s reads matched ih =>
    rw [references_taken reads, forall_mem_cons] at unread
    have only : ∀ i < (standing newName access r s).length,
        readMember newName ((standing newName access r s).drop i ++ rewritten name (standing newName) s) ≠ none →
        (access = .dot ∧ ReadsOwn newName r s) ∧ 5 ≤ i := unread.1
    have ih := ih unread.2
    rw [rewritten_taken reads, rewritten_taken reads]
    by_cases own : access = .dot ∧ ReadsOwn newName r s
    · obtain ⟨rfl, unescaped, reads_own⟩ := id own
      obtain ⟨member, _, closing⟩ := readReference_append matched
      have opening : r.opening = ['$', 'n', 'o', 'd', 'e', '.'] := mem_singleton.mp member
      have here : standing newName .dot r s = ['$', 'n', 'o', 'd', 'e'] ++ ('.' :: (newName ++ r.closing)) := by
        simp [standing, renamed, opening, unescaped]
      have silent : ∀ i < ['$', 'n', 'o', 'd', 'e'].length, readMember newName (['$', 'n', 'o', 'd', 'e'].drop i ++
          ('.' :: (newName ++ r.closing) ++ rewritten name (standing newName) s)) = none := by
        intro i inside
        by_contra found
        rw [here] at only
        have late := only i (by simp at inside ⊢; omega) (by
          rwa [drop_append_of_le_length (Nat.le_of_lt inside), append_assoc])
        exact absurd late.2 (Nat.not_le.mpr inside)
      rw [called, if_pos own, here, append_assoc, replaceAll_through silent]
      rw [append_assoc, readMember_name] at reads_own
      rw [unescaped] at ih ⊢
      rcases mem_pair.mp (readFirst_some closing).1 with dot | empty
      · -- the dot that ends the match belongs to it
        rw [dot, show '.' :: (newName ++ ['.']) ++ rewritten name (standing newName) s =
          '.' :: (newName ++ '.' :: rewritten name (standing newName) s) by simp, callback_taken (.inr rfl), ih]
        simp
      · -- the separator stands behind the match, and is kept
        rw [empty, nil_append] at reads_own
        cases s with
        | nil => exact absurd rfl reads_own
        | cons t rest =>
          have separator : t = ' ' ∨ t = '.' := by
            by_contra other
            exact reads_own (by simpa using other)
          have other : t ≠ '$' := by rcases separator with rfl | rfl <;> decide
          have plain : readAny name (t :: rest) = none := readAny_other other
          rw [references_plain plain, forall_mem_cons] at unread
          have silent : readMember newName (t :: rewritten name (standing newName) rest) = none := unread.2.1
          rw [rewritten_plain plain, rewritten_plain plain, replaceAll_plain silent] at ih
          rw [rewritten_plain plain, rewritten_plain plain, empty, append_nil,
            show '.' :: newName ++ t :: rewritten name (standing newName) rest =
              '.' :: (newName ++ t :: rewritten name (standing newName) rest) by simp,
            callback_taken separator, (List.cons.inj ih).2]
          simp
    · rw [called, if_neg own, ← ih]
      refine replaceAll_through fun i inside => ?_
      by_contra found
      exact own (only i inside found).1

end Called

/-! ## The whole renaming -/

section Whole

variable {name newName : List Char} {access : AccessPattern} {block : Block}

theorem checkPattern_opens (access : AccessPattern) : ∀ opening ∈ access.openings, access.checkPattern <+: opening := by
  cases access <;> decide

theorem pass_idle {s : List Char} (absent : ¬ access.checkPattern <:+: s) (emit : Reference → List Char → List Char) :
    replaceAll (readReference name access) (fun r => r.text.length) emit s = s := by
  have silent : ∀ i < s.length, readReference name access (s.drop i ++ []) = none := by
    intro i _
    rw [append_nil, eq_none_iff_forall_not_mem]
    intro r reads
    obtain ⟨member, _, rest, split, _⟩ := readReference_some reads
    have opening : r.opening <+: s.drop i := ⟨r.written ++ r.closing ++ rest, by rw [split]; simp [Reference.text]⟩
    have inside : r.opening <:+: s := opening.isInfix.trans (drop_suffix i s).isInfix
    exact absent ((checkPattern_opens access _ member).isInfix.trans inside)
  have through : replaceAll (readReference name access) (fun r => r.text.length) emit (s ++ []) = s ++ [] :=
    replaceAll_through silent
  rwa [append_nil] at through

theorem renameAccess_eq (other : access ≠ .dot) (s : List Char) :
    renameAccess name newName s access = replaceAll (readReference name access) (fun r => r.text.length)
      (fun r _ => r.opening ++ quoteEscape newName ++ r.closing) s := by
  simp only [renameAccess, expand_reference]
  split
  · cases access with
    | dot => exact absurd rfl other
    | _ => rfl
  · rename_i absent
    exact (pass_idle absent _).symm

theorem renameAccess_dot (s : List Char) : renameAccess name newName s .dot =
      if dot.checkPattern <:+: s ∧ hasDotNotationBannedChar newName = true then
        replaceAll (readMember newName) (fun _ => newName.length + 2)
          (fun t _ => ['[', '"'] ++ quoteEscape newName ++ ['"', ']', t])
          (replaceAll (readReference name .dot) (fun r => r.text.length)
            (fun r _ => r.opening ++ quoteEscape newName ++ r.closing) s)
      else
        replaceAll (readReference name .dot) (fun r => r.text.length)
          (fun r _ => r.opening ++ quoteEscape newName ++ r.closing) s := by
  simp only [renameAccess, customCallback, expand_reference, expand_member]
  by_cases present : dot.checkPattern <:+: s
  · by_cases banned : hasDotNotationBannedChar newName = true
    · rw [if_pos present, if_pos banned, if_pos ⟨present, banned⟩]
    · rw [if_pos present, if_neg banned, if_neg fun both => banned both.2]
  · rw [if_neg present, if_neg fun both => present both.1]
    exact (pass_idle present _).symm

/-- Each pass takes its own matches, and the callback, where it runs, finds the new name only where it was put. -/
structure Undisturbed (name newName expression : List Char) : Prop where
  call : ∀ piece ∈ references name expression, TakesOwn name .call unchanged piece
  node : ∀ piece ∈ references name expression, TakesOwn name .node (renamed newName .call unchanged) piece
  dot : ∀ piece ∈ references name expression,
    TakesOwn name .dot (renamed newName .node (renamed newName .call unchanged)) piece
  items : ∀ piece ∈ references name expression,
    if AccessPattern.dot.checkPattern <:+:
          rewritten name (renamed newName .node (renamed newName .call unchanged)) expression ∧
        hasDotNotationBannedChar newName = true then
      Unread name newName piece ∧ TakesOwn name .items (called newName) piece
    else TakesOwn name .items (standing newName) piece

theorem applyAccessPatterns_eq {expression : List Char} (undisturbed : Undisturbed name newName expression) :
    ∃ block : Block, (∀ r rest, ∃ changed, block dot r rest = changed ++ r.closing) ∧
      applyAccessPatterns expression name newName = rewritten name block expression := by
  unfold applyAccessPatterns
  split
  · simp only [accessPatterns, foldl_cons, foldl_nil]
    have call : renameAccess name newName expression .call =
        rewritten name (renamed newName .call unchanged) expression := by
      have pass := pass_rewritten newName (fun _ _ => rfl) expression undisturbed.call
      rwa [rewritten_unchanged, ← renameAccess_eq (by decide)] at pass
    have node : renameAccess name newName (rewritten name (renamed newName .call unchanged) expression) .node =
        rewritten name (renamed newName .node (renamed newName .call unchanged)) expression := by
      rw [renameAccess_eq (by decide), pass_rewritten newName (fun _ _ => rfl) expression undisturbed.node]
    have items := undisturbed.items
    rw [call, node, renameAccess_dot, pass_rewritten newName (fun _ _ => rfl) expression undisturbed.dot,
      renameAccess_eq (by decide), ← standing]
    split
    · next runs =>
      simp only [if_pos runs] at items
      rw [callback_rewritten expression fun piece member => (items piece member).1, pass_rewritten newName
        (fun _ _ => rfl) expression fun piece member => (items piece member).2]
      refine ⟨_, fun r rest => ?_, rfl⟩
      rw [renamed, if_neg (by decide), called]
      split
      · exact ⟨_, rfl⟩
      · exact ⟨r.opening ++ quoteEscape newName, rfl⟩
    · next idle =>
      simp only [if_neg idle] at items
      rw [pass_rewritten newName (fun _ _ => rfl) expression items]
      exact ⟨_, fun r rest => ⟨r.opening ++ quoteEscape newName, rfl⟩, rfl⟩
  · exact ⟨unchanged, fun r rest => ⟨r.opening ++ r.written, rfl⟩, (rewritten_unchanged expression).symm⟩

/-- The quotes of a match are the same, and a dotted name is not continued. -/
def Legible : Piece Char (AccessPattern × Reference) → Prop
  | .plain _ _ => True
  | .taken (.dot, r) rest => r.closing = [] → ∀ c ∈ rest.head?, isIdentifierPart c = false
  | .taken (_, r) _ => r.opening.getLast? = r.closing.head?

theorem sameOutside_rewritten
    (kept : ∀ r rest, ∃ changed, block dot r rest = changed ++ r.closing) (s : List Char)
    (legible : ∀ piece ∈ references name s, Legible piece) : SameOutsideReferences name s (rewritten name block s) := by
  induction s using references_induction name with
  | nil => exact .nil
  | plain c s unread ih =>
    rw [references_plain unread] at legible
    rw [rewritten_plain unread]
    exact .same c (ih fun piece member => legible piece (mem_cons_of_mem _ member))
  | taken access r s reads matched ih =>
    rw [references_taken reads] at legible
    have here := legible _ mem_cons_self
    have later := ih fun piece member => legible piece (mem_cons_of_mem _ member)
    rw [rewritten_taken reads]
    obtain ⟨opens, spelled, reads_closing⟩ := readReference_append matched
    have closes := (readFirst_some reads_closing).1
    clear reads matched reads_closing
    obtain ⟨opening, written, closing⟩ := r
    simp only [Reference.text] at opens spelled closes later ⊢
    cases access with
    | call =>
      have refers (q : Char) (quote : q = '\'' ∨ q = '"') :
          RefersTo name (['$', '('] ++ [q] ++ written ++ [q, ')']) s := by
        simpa using RefersTo.call quote spelled
      simp only [openings, closings, checkPattern, mem_cons,
        not_mem_nil, or_false] at opens closes
      rcases opens with rfl | rfl <;> rcases closes with rfl | rfl <;> simp [Legible] at here
      · exact .reference _ (refers '\'' (.inl rfl)) later
      · exact .reference _ (refers '"' (.inr rfl)) later
    | node =>
      have refers (q : Char) (quote : q = '\'' ∨ q = '"') :
          RefersTo name (['$', 'n', 'o', 'd', 'e', '['] ++ [q] ++ written ++ [q, ']']) s := by
        simpa using RefersTo.node quote spelled
      simp only [openings, closings, checkPattern, mem_cons,
        not_mem_nil, or_false] at opens closes
      rcases opens with rfl | rfl <;> rcases closes with rfl | rfl <;> simp [Legible] at here
      · exact .reference _ (refers '\'' (.inl rfl)) later
      · exact .reference _ (refers '"' (.inr rfl)) later
    | items =>
      have refers (q e : Char) (quote : q = '\'' ∨ q = '"') (ending : e = ')' ∨ e = ',') :
          RefersTo name (['$', 'i', 't', 'e', 'm', 's', '('] ++ [q] ++ written ++ [q, e]) s := by
        simpa using RefersTo.items quote ending spelled
      simp only [openings, closings, checkPattern, mem_cons,
        not_mem_nil, or_false] at opens closes
      rcases opens with rfl | rfl <;> rcases closes with rfl | rfl | rfl | rfl <;> simp [Legible] at here
      · exact .reference _ (refers '\'' ',' (.inl rfl) (.inr rfl)) later
      · exact .reference _ (refers '\'' ')' (.inl rfl) (.inl rfl)) later
      · exact .reference _ (refers '"' ',' (.inr rfl) (.inr rfl)) later
      · exact .reference _ (refers '"' ')' (.inr rfl) (.inl rfl)) later
    | dot =>
      obtain ⟨changed, same⟩ := kept ⟨opening, written, closing⟩ s
      obtain rfl : opening = ['$', 'n', 'o', 'd', 'e', '.'] := mem_singleton.mp opens
      rw [same]
      rcases mem_pair.mp closes with rfl | rfl
      · have refers : RefersTo name (['$', 'n', 'o', 'd', 'e', '.'] ++ written) ('.' :: s) :=
          .dot spelled (by simp; decide)
        have both := SameOutsideReferences.reference changed refers (.same '.' later)
        simpa using both
      · have refers : RefersTo name (['$', 'n', 'o', 'd', 'e', '.'] ++ written) s := .dot spelled (here rfl)
        simpa using SameOutsideReferences.reference changed refers later

end Whole

/-! ## When only references are renamed -/

instance (name newName : List Char) : DecidablePred (Unread name newName)
  | .plain c rest =>
    inferInstanceAs (Decidable (readMember newName (c :: rewritten name (standing newName) rest) = none))
  | .taken (access, r) rest =>
    inferInstanceAs (Decidable (∀ i < (standing newName access r rest).length, _ → (_ ∧ _) ∧ _))

instance (name : List Char) (a : AccessPattern) (block : Block) : DecidablePred (TakesOwn name a block)
  | .plain c rest => inferInstanceAs (Decidable (readReference name a (c :: rewritten name block rest) = none))
  | .taken (b, r) rest =>
    inferInstanceAs (Decidable (if b = a then readReference name a _ = some r else ∀ i < (block b r rest).length, _))

instance : DecidablePred Legible
  | .plain _ _ => inferInstanceAs (Decidable True)
  | .taken (.dot, r) behind =>
    inferInstanceAs (Decidable (r.closing = [] → ∀ c ∈ behind.head?, isIdentifierPart c = false))
  | .taken (.call, r) _ => inferInstanceAs (Decidable (r.opening.getLast? = r.closing.head?))
  | .taken (.node, r) _ => inferInstanceAs (Decidable (r.opening.getLast? = r.closing.head?))
  | .taken (.items, r) _ => inferInstanceAs (Decidable (r.opening.getLast? = r.closing.head?))

/-- The passes do not disturb each other, and every match is a reference. -/
structure RenamesCleanly (name newName expression : List Char) : Prop extends
    Undisturbed name newName expression where
  legible : ∀ piece ∈ references name expression, Legible piece

theorem same_of_free {name s t : List Char} (same : SameOutsideReferences name s t) (free : '$' ∉ s) : t = s := by
  induction same with
  | nil => rfl
  | same c _ ih =>
    simp only [mem_cons, not_or] at free
    rw [ih free.2]
  | reference changed refers _ _ => cases refers <;> simp at free

theorem Spelled.plain {c : Char} {name text : List Char} (spelled : Spelled (c :: name) text)
    (only : spellings c = [[c]]) : ∃ more, text = c :: more ∧ Spelled name more := by
  cases spelled with
  | cons member more =>
    rw [only, mem_singleton] at member
    exact ⟨_, by rw [member]; rfl, more⟩

end N8n.NodeReferences
