import Blockwork.JsonText.Shape
import Blockwork.JsonText.Tree

/-! # Written text is read back
What is written for a tree is read back by the reader of its shape, up to the limit on nesting; a tree that is
nested deeper is found malformed. -/

namespace Blockwork.JsonText

open Tree

theorem stringBody_escape (h : escape s = .ok (c, rest)) :
    stringBody ('\\' :: s) = (stringBody rest).map fun x => (c :: x.1, x.2) := by
  rw [stringBody]
  split
  · next heq =>
    rw [h] at heq
    cases heq
  · next heq =>
    rw [h] at heq
    cases heq
    rfl

theorem stringBody_plain (hquote : c ≠ '"') (hback : c ≠ '\\') (hplain : ¬ c.toNat < 0x20) (s : List Char) :
    stringBody (c :: s) = (stringBody s).map fun x => (c :: x.1, x.2) := by
  rw [stringBody.eq_def]
  split
  · next heq => cases heq
  · next heq => exact absurd (List.cons.inj heq).1 hquote
  · next heq => exact absurd (List.cons.inj heq).1 hback
  · next heq =>
    obtain ⟨rfl, rfl⟩ := List.cons.inj heq
    rw [if_neg hplain]

theorem hexEscape_hexText (h : n < 0x20) (s : List Char) : hexEscape (Text.hexText 4 n ++ s) = .ok (n, s) := by
  have hlength : (Text.hexText 4 n).length = 4 := rfl
  have hdigits : ∀ m < 0x20, (Text.encode (Text.hexText 4 m)).length = 4 ∧ Text.hexValue? (Text.hexText 4 m) = some m := by
    decide
  obtain ⟨hbytes, hvalue⟩ := hdigits n h
  simp only [hexEscape, List.take_left' hlength, List.drop_left' hlength, hbytes, hvalue]
  rfl

theorem escape_hexText (h : c.toNat < 0x20) (s : List Char) :
    escape ('u' :: (Text.hexText 4 c.toNat ++ s)) = .ok (c, s) := by
  have hlow : isLow c.toNat = false := by simp [isLow]; omega
  have hhigh : isHigh c.toNat = false := by simp [isHigh]; omega
  simp [escape, unicodeEscape, hexEscape_hexText h, hlow, hhigh]

theorem stringBody_escapeChar (c : Char) (s : List Char) :
    stringBody (escapeChar c ++ s) = (stringBody s).map fun x => (c :: x.1, x.2) := by
  unfold escapeChar
  split
  iterate 7 exact stringBody_escape rfl
  next hquote hback _ _ _ _ _ =>
    split
    · next hlow => exact stringBody_escape (escape_hexText hlow s)
    · next hplain => exact stringBody_plain hquote hback hplain s

theorem stringBody_quote (cs : List Char) (rest : List Char) :
    stringBody (cs.flatMap escapeChar ++ '"' :: rest) = .ok (cs, rest) := by
  induction cs with
  | nil =>
    show stringBody ('"' :: rest) = _
    rw [stringBody]
  | cons c cs ih =>
    rw [List.flatMap_cons, List.append_assoc, stringBody_escapeChar, ih]
    rfl

/-! ### Steps of a reader -/

section Steps

variable {f : α → Reader β}

theorem bind_ok (h : r s = .ok (a, rest)) : (r >>= f) s = f a rest := by
  simp only [bind, StateT.bind, h, Except.bind]

theorem bind_error (h : r s = .error e) : (r >>= f) s = .error e := by
  simp only [bind, StateT.bind, h, Except.bind]

def Blank (s : List Char) : Prop := ∀ c ∈ s, isBlank c = true

@[simp] theorem blank_nil : Blank [] := List.forall_mem_nil _

@[simp] theorem blank_space : Blank [' '] := by
  simp [Blank, isBlank]

@[simp] theorem blank_newline (level : Nat) : Blank (newline level) := by
  simp [Blank, newline, isBlank]

theorem peek_blank (hb : Blank blanks) (hc : isBlank c = false) :
    peek (blanks ++ c :: rest) = .ok (some c, c :: rest) := by
  simp [peek, List.dropWhile_append_of_pos hb, hc]

theorem peek_mark (hc : isBlank c = false) : peek (c :: rest) = .ok (some c, c :: rest) :=
  peek_blank blank_nil hc

theorem stringRest_quote (t : String) (rest : List Char) :
    stringRest (t.toList.flatMap escapeChar ++ '"' :: rest) = .ok (t, rest) := by
  simp [stringRest, stringBody_quote, Except.map]

end Steps

/-! ### Trees that are read back -/

def nameText (name : String) (rest : List Char) : List Char :=
  quote name ++ ':' :: ' ' :: rest

/-- A reader takes the text of a tree for a value where the tree fits the limit on nesting, and finds it malformed where
it does not. -/
def Loads {α : Type} (r : Reader α) (t : Tree) (limit : Nat) (a : α) : Prop :=
  ∀ blanks level rest, Blank blanks →
    r (blanks ++ (t.render level ++ rest)) = if t.depth ≤ limit then .ok (a, rest) else .error .malformed

section Loads

variable {limit : Nat} {a : α}

theorem Loads.bind (h : Loads r t limit a) (f : α → Reader β) (hb : Blank blanks) (level : Nat) (rest : List Char) :
    (r >>= f) (blanks ++ (t.render level ++ rest)) = if t.depth ≤ limit then f a rest else .error .malformed := by
  have hrun := h blanks level rest hb
  split
  · next hfits => exact bind_ok (hrun.trans (if_pos hfits))
  · next hfits => exact bind_error (hrun.trans (if_neg hfits))

theorem Loads.map (h : Loads r t limit a) (f : α → β) : Loads (do return f (← r)) t limit (f a) :=
  fun _ level rest hb => h.bind _ hb level rest

theorem string_loads (t : String) (limit : Nat) : Loads string (.text t) limit t := by
  intro blanks level rest hb
  have htext : (text t).render level ++ rest = '"' :: (t.toList.flatMap escapeChar ++ '"' :: rest) := by
    simp [render, quote]
  have hfits : (text t).depth ≤ limit := by simp [depth]
  rw [htext, string, bind_ok (peek_blank hb rfl), if_pos hfits]
  exact stringRest_quote t rest

section Written

variable (level : Nat) (rest : List Char)

theorem renderItems_cons (t : Tree) (ts : List Tree) : renderItems level (t :: ts) ++ rest =
    ',' :: (newline level ++ (t.render level ++ (renderItems level ts ++ rest))) := by
  simp [renderItems]

theorem renderFields_cons (name : String) (t : Tree) (fs : List (String × Tree)) :
    renderFields level ((name, t) :: fs) ++ rest =
      ',' :: (newline level ++ nameText name (t.render level ++ (renderFields level fs ++ rest))) := by
  simp [renderFields, nameText]

theorem render_list_cons (t : Tree) (ts : List Tree) : (Tree.list (t :: ts)).render level ++ rest =
    '[' :: (newline (level + 1) ++ (t.render (level + 1) ++
      (renderItems (level + 1) ts ++ (newline level ++ ']' :: rest)))) := by
  simp [render]

theorem render_record_cons (name : String) (t : Tree) (fs : List (String × Tree)) :
    (Tree.record ((name, t) :: fs)).render level ++ rest =
      '\x7b' :: (newline (level + 1) ++ nameText name (t.render (level + 1) ++
        (renderFields (level + 1) fs ++ (newline level ++ '\x7d' :: rest)))) := by
  simp [render, nameText]

theorem list_head (ts : List Tree) : ∃ s, (Tree.list ts).render level ++ rest = '[' :: s := by
  cases ts with
  | nil => exact ⟨_, rfl⟩
  | cons t ts => exact ⟨_, render_list_cons level rest t ts⟩

theorem record_head (fs : List (String × Tree)) : ∃ s, (Tree.record fs).render level ++ rest = '\x7b' :: s := by
  cases fs with
  | nil => exact ⟨_, rfl⟩
  | cons f fs => exact ⟨_, render_record_cons level rest f.1 f.2 fs⟩

end Written

theorem render_head (t : Tree) (level : Nat) (rest : List Char) : ∃ s, t.render level ++ rest = '"' :: s ∨
    t.render level ++ rest = '[' :: s ∨ t.render level ++ rest = '\x7b' :: s := by
  cases t with
  | text s => exact ⟨_, .inl rfl⟩
  | list ts => exact (list_head level rest ts).imp fun _ h => .inr (.inl h)
  | record fs => exact (record_head level rest fs).imp fun _ h => .inr (.inr h)

theorem ite_max_le (x y : α) :
    (if max m n ≤ limit then x else y) = if m ≤ limit then if n ≤ limit then x else y else y := by
  by_cases hm : m ≤ limit <;> by_cases hn : n ≤ limit <;> simp [Nat.max_le, hm, hn]

/-! ### Lists -/

theorem moreItems_first (hb : Blank blanks) (t : Tree) (level : Nat) (rest : List Char) :
    moreItems true (blanks ++ (t.render level ++ rest)) = .ok (true, t.render level ++ rest) := by
  obtain ⟨s, hrender | hrender | hrender⟩ := render_head t level rest
  all_goals
    rw [hrender, moreItems, bind_ok (peek_blank hb rfl)]
    rfl

theorem moreItems_next (t : Tree) (level : Nat) (rest : List Char) :
    moreItems false (',' :: (newline level ++ (t.render level ++ rest))) = .ok (true, t.render level ++ rest) := by
  obtain ⟨s, hrender | hrender | hrender⟩ := render_head t level rest
  all_goals
    rw [hrender, moreItems, bind_ok (peek_mark rfl)]
    show (advance >>= fun _ => peek >>= _) _ = _
    rw [bind_ok rfl]
    show (peek >>= _) (newline level ++ _) = _
    rw [bind_ok (peek_blank (blank_newline level) rfl)]
    rfl

theorem moreItems_end (hb : Blank blanks) (first : Bool) (rest : List Char) :
    moreItems first (blanks ++ ']' :: rest) = .ok (false, ']' :: rest) := by
  rw [moreItems, bind_ok (peek_blank hb rfl)]
  rfl

theorem itemsFrom_end (item : Reader α) (hbound : 0 < bound.length) (hb : Blank blanks) (first : Bool)
    (rest : List Char) : itemsFrom item bound first (blanks ++ ']' :: rest) = .ok ([], rest) := by
  obtain ⟨c, bound, rfl⟩ := List.exists_cons_of_length_pos hbound
  rw [itemsFrom, bind_ok (moreItems_end hb first rest)]
  rfl

theorem itemsFrom_item (h : Loads item t limit a) (hbound : 0 < bound.length)
    (hmore : moreItems first s = .ok (true, t.render level ++ rest)) :
    itemsFrom item bound first s = if t.depth ≤ limit then
      (itemsFrom item bound.tail false rest).map fun x => (a :: x.1, x.2) else .error .malformed := by
  obtain ⟨c, bound, rfl⟩ := List.exists_cons_of_length_pos hbound
  rw [itemsFrom, bind_ok hmore]
  exact h.bind _ blank_nil level rest

theorem itemsFrom_items (h : ∀ a, Loads item (tree a) limit a) (hb : Blank blanks) (level : Nat)
    (rest : List Char) (as : List α) : ∀ {bound : List Char}, as.length < bound.length →
      itemsFrom item bound false (renderItems level (as.map tree) ++ (blanks ++ ']' :: rest)) =
        if depthItems (as.map tree) ≤ limit then .ok (as, rest) else .error .malformed := by
  induction as with
  | nil =>
    intro bound hbound
    exact itemsFrom_end item hbound hb false rest
  | cons a as ih =>
    intro bound hbound
    have hmore := moreItems_next (tree a) level (renderItems level (as.map tree) ++ (blanks ++ ']' :: rest))
    have htail : as.length < bound.tail.length := by
      rw [List.length_cons] at hbound
      rw [List.length_tail]
      omega
    rw [List.map_cons, renderItems_cons, itemsFrom_item (h a) (Nat.zero_lt_of_lt hbound) hmore, ih htail, depthItems,
      ite_max_le]
    split
    · split <;> rfl
    · rfl

theorem length_le_renderItems (level : Nat) (ts : List Tree) : ts.length ≤ (renderItems level ts).length := by
  induction ts with
  | nil => exact Nat.le_refl _
  | cons t ts ih =>
    simp only [renderItems, List.length_cons, List.length_append]
    omega

theorem list_loads (h : ∀ a, Loads item (tree a) limit a) (as : List α) :
    Loads (list (some item)) (.list (as.map tree)) (limit + 1) as := by
  intro blanks level rest hb
  simp only [Tree.depth, Nat.add_le_add_iff_right]
  cases as with
  | nil =>
    show (peek >>= _) (blanks ++ '[' :: ']' :: rest) = _
    rw [bind_ok (peek_blank hb rfl)]
    exact itemsFrom_end item (by simp) blank_nil true rest
  | cons a as =>
    have hmore := moreItems_first (blank_newline (level + 1)) (tree a) (level + 1)
      (renderItems (level + 1) (as.map tree) ++ (newline level ++ ']' :: rest))
    generalize hinside : newline (level + 1) ++ ((tree a).render (level + 1) ++
      (renderItems (level + 1) (as.map tree) ++ (newline level ++ ']' :: rest))) = inside at hmore
    have hlength : as.length < inside.tail.length := by
      have hitems := length_le_renderItems (level + 1) (as.map tree)
      rw [List.length_map] at hitems
      simp only [← hinside, newline, List.length_tail, List.length_append, List.length_cons]
      omega
    have hpos : 0 < inside.length := by
      rw [List.length_tail] at hlength
      omega
    rw [List.map_cons, render_list_cons, hinside, list, bind_ok (peek_blank hb rfl), depthItems, ite_max_le]
    show itemsFrom item inside true inside = _
    rw [itemsFrom_item (h a) hpos hmore, itemsFrom_items h (blank_newline level) (level + 1) rest as hlength]
    split
    · split <;> rfl
    · rfl

theorem list_none_loads (ts : List Tree) (as : List α) : Loads (list none) (.list ts) 0 as := by
  intro blanks level rest hb
  have hdeep : ¬ (Tree.list ts).depth ≤ 0 := by simp [Tree.depth]
  obtain ⟨s, htext⟩ := list_head level rest ts
  rw [htext, if_neg hdeep, list, bind_ok (peek_blank hb rfl)]
  rfl

/-! ### Records -/

/-- Fields are read from trees one by one, each of them once: the state before, the fields, and the state after. -/
inductive FieldsLoad {σ : Type} (fields : List (Member σ)) (limit : Nat) : σ → List (String × Tree) → σ → Prop
  | nil (st : σ) : FieldsLoad fields limit st [] st
  | cons {name : String} {t : Tree} {fs : List (String × Tree)} {f : Member σ} :
      fields.find? (·.name == name) = some f → f.filled st = false → Loads (f.read st) t limit next →
      FieldsLoad fields limit next fs last → FieldsLoad fields limit st ((name, t) :: fs) last

variable {next : σ}

theorem moreFields_first (hb : Blank blanks) (name : String) (rest : List Char) :
    moreFields true (blanks ++ nameText name rest) = .ok (true, nameText name rest) := by
  rw [nameText, quote, List.cons_append, List.cons_append, moreFields, bind_ok (peek_blank hb rfl)]
  rfl

theorem moreFields_next (level : Nat) (name : String) (rest : List Char) :
    moreFields false (',' :: (newline level ++ nameText name rest)) = .ok (true, nameText name rest) := by
  rw [nameText, quote, List.cons_append, List.cons_append, moreFields, bind_ok (peek_mark rfl)]
  show (advance >>= fun _ => peek >>= _) _ = _
  rw [bind_ok rfl]
  show (peek >>= _) (newline level ++ _) = _
  rw [bind_ok (peek_blank (blank_newline level) rfl)]
  rfl

theorem fieldsFrom_end (fields : List (Member σ)) (hbound : 0 < bound.length) (hb : Blank blanks) (first : Bool)
    (st : σ) (rest : List Char) : fieldsFrom fields bound first st (blanks ++ '\x7d' :: rest) = .ok (st, rest) := by
  obtain ⟨c, bound, rfl⟩ := List.exists_cons_of_length_pos hbound
  have hmore : moreFields first (blanks ++ '\x7d' :: rest) = .ok (false, '\x7d' :: rest) := by
    rw [moreFields, bind_ok (peek_blank hb rfl)]
    rfl
  rw [fieldsFrom, bind_ok hmore]
  rfl

theorem colon_mark (rest : List Char) : colon (':' :: rest) = .ok ((), rest) := by
  rfl

theorem fieldValue_loads (hfind : fields.find? (·.name == name) = some f) (hfilled : f.filled st = false)
    (h : Loads (f.read st) t limit next) (level : Nat) (rest : List Char) :
    fieldValue fields name st (':' :: ' ' :: (t.render level ++ rest)) =
      if t.depth ≤ limit then .ok (next, rest) else .error .malformed := by
  simp only [fieldValue, hfind, hfilled]
  show (colon >>= _) _ = _
  exact h [' '] level rest blank_space

theorem stringRest_nameText (name : String) (rest : List Char) :
    stringRest ((nameText name rest).drop 1) = .ok (name, ':' :: ' ' :: rest) := by
  simp only [nameText, quote, List.cons_append, List.drop_one, List.tail_cons, List.append_assoc, List.nil_append]
  exact stringRest_quote name _

theorem fieldsFrom_field (hfind : fields.find? (·.name == name) = some f) (hfilled : f.filled st = false)
    (h : Loads (f.read st) t limit next) (hbound : 0 < bound.length)
    (hmore : moreFields first s = .ok (true, nameText name (t.render level ++ rest))) :
    fieldsFrom fields bound first st s =
      if t.depth ≤ limit then fieldsFrom fields bound.tail false next rest else .error .malformed := by
  obtain ⟨c, bound, rfl⟩ := List.exists_cons_of_length_pos hbound
  have hvalue := fieldValue_loads hfind hfilled h level rest
  rw [fieldsFrom, bind_ok hmore]
  show (advance >>= fun _ => stringRest >>= _) _ = _
  rw [bind_ok rfl, bind_ok (stringRest_nameText name _)]
  split
  · next hfits => exact bind_ok (hvalue.trans (if_pos hfits))
  · next hfits => exact bind_error (hvalue.trans (if_neg hfits))

theorem fieldsFrom_fields (hb : Blank blanks) (level : Nat) (rest : List Char)
    (h : FieldsLoad fields limit st fs last) : ∀ {bound : List Char}, fs.length < bound.length →
      fieldsFrom fields bound false st (renderFields level fs ++ (blanks ++ '\x7d' :: rest)) =
        if depthFields fs ≤ limit then .ok (last, rest) else .error .malformed := by
  induction h with
  | nil st =>
    intro bound hbound
    exact fieldsFrom_end fields hbound hb false st rest
  | @cons st next last name t fs f hfind hfilled hread hfs ih =>
    intro bound hbound
    have hmore := moreFields_next level name
      (t.render level ++ (renderFields level fs ++ (blanks ++ '\x7d' :: rest)))
    have htail : fs.length < bound.tail.length := by
      rw [List.length_cons] at hbound
      rw [List.length_tail]
      omega
    rw [renderFields_cons, fieldsFrom_field hfind hfilled hread (Nat.zero_lt_of_lt hbound) hmore, ih htail,
      depthFields, ite_max_le]

theorem length_le_renderFields (level : Nat) (fs : List (String × Tree)) :
    fs.length ≤ (renderFields level fs).length := by
  induction fs with
  | nil => exact Nat.le_refl _
  | cons f fs ih =>
    simp only [renderFields, List.length_cons, List.length_append]
    omega

theorem record_text (h : FieldsLoad fields limit st fs last) (level : Nat) (rest : List Char) :
    ∃ s, (Tree.record fs).render level ++ rest = '\x7b' :: s ∧
      fieldsFrom fields s true st s = if depthFields fs ≤ limit then .ok (last, rest) else .error .malformed := by
  cases h with
  | nil =>
    refine ⟨'\x7d' :: rest, rfl, ?_⟩
    exact fieldsFrom_end fields (by simp) blank_nil true _ rest
  | @cons _ next _ name t fs f hfind hfilled hread hfs =>
    have hmore := moreFields_first (blank_newline (level + 1)) name
      (t.render (level + 1) ++ (renderFields (level + 1) fs ++ (newline level ++ '\x7d' :: rest)))
    generalize hinside : newline (level + 1) ++ nameText name (t.render (level + 1) ++
      (renderFields (level + 1) fs ++ (newline level ++ '\x7d' :: rest))) = inside at hmore
    have hlength : fs.length < inside.tail.length := by
      have hfields := length_le_renderFields (level + 1) fs
      simp only [← hinside, newline, nameText, List.length_tail, List.length_append, List.length_cons]
      omega
    have hpos : 0 < inside.length := by
      rw [List.length_tail] at hlength
      omega
    refine ⟨inside, by rw [render_record_cons, hinside], ?_⟩
    rw [fieldsFrom_field hfind hfilled hread hpos hmore, depthFields, ite_max_le,
      fieldsFrom_fields (blank_newline level) (level + 1) rest hfs hlength]

theorem record_loads (h : FieldsLoad fields limit empty fs last)
    (hfinish : finish last = some a) : Loads (record (some fields) empty finish) (.record fs) (limit + 1) a := by
  intro blanks level rest hb
  obtain ⟨s, htext, hfields⟩ := record_text h level rest
  rw [htext, record, bind_ok (peek_blank hb rfl)]
  show (fieldsFrom fields s true empty >>= fun st => accept (finish st)) s = _
  simp only [Tree.depth, Nat.add_le_add_iff_right]
  split
  · next hfits =>
    rw [bind_ok (hfields.trans (if_pos hfits)), hfinish]
    rfl
  · next hfits => exact bind_error (hfields.trans (if_neg hfits))

theorem record_none_loads (fs : List (String × Tree)) (a : α) :
    Loads (record none empty finish) (.record fs) 0 a := by
  intro blanks level rest hb
  have hdeep : ¬ (Tree.record fs).depth ≤ 0 := by simp [Tree.depth]
  obtain ⟨s, htext⟩ := record_head level rest fs
  rw [htext, if_neg hdeep, record, bind_ok (peek_blank hb rfl)]
  rfl

theorem tagged_loads (hcase : cases.lookup name = some r) (h : Loads r t limit a) :
    Loads (tagged (some cases)) (.record [(name, t)]) (limit + 1) a := by
  intro blanks level rest hb
  have htag : tag (newline (level + 1) ++ nameText name (t.render (level + 1) ++ (newline level ++ '\x7d' :: rest))) =
      .ok (name, ':' :: ' ' :: (t.render (level + 1) ++ (newline level ++ '\x7d' :: rest))) := by
    have hpeek : peek (newline (level + 1) ++ nameText name (t.render (level + 1) ++ (newline level ++ '\x7d' :: rest))) =
        .ok (some '"', nameText name (t.render (level + 1) ++ (newline level ++ '\x7d' :: rest))) := by
      exact peek_blank (blank_newline _) rfl
    rw [tag, bind_ok hpeek]
    exact stringRest_nameText name _
  have hdepth : (Tree.record [(name, t)]).depth = t.depth + 1 := by simp [depth, depthFields]
  rw [render_record_cons, renderFields, List.nil_append, hdepth, tagged, bind_ok (peek_blank hb rfl)]
  show (advance >>= fun _ => tag >>= _) _ = _
  rw [bind_ok rfl, List.drop_one, List.tail_cons, bind_ok htag]
  simp only [hcase, Nat.add_le_add_iff_right]
  rw [bind_ok (colon_mark _)]
  refine (h.bind _ blank_space (level + 1) (newline level ++ '\x7d' :: rest)).trans ?_
  rw [bind_ok (peek_blank (blank_newline level) rfl)]
  rfl

theorem tagged_none_loads (fs : List (String × Tree)) (a : α) : Loads (tagged none) (.record fs) 0 a := by
  intro blanks level rest hb
  have hdeep : ¬ (Tree.record fs).depth ≤ 0 := by simp [depth]
  obtain ⟨s, htext⟩ := record_head level rest fs
  rw [htext, if_neg hdeep, tagged, bind_ok (peek_blank hb rfl)]
  rfl

end Loads

/-! ### Nesting of a text -/

inductive Look where
  | outside
  | quoted
  | escaped
  deriving DecidableEq, Repr

/-- Greatest number of brackets open at once in a text, where some are open already. -/
def nestingFrom : Look → Nat → List Char → Nat
  | _, opened, [] => opened
  | .escaped, opened, _ :: s => nestingFrom .quoted opened s
  | .quoted, opened, c :: s =>
    if c = '"' then nestingFrom .outside opened s
    else if c = '\\' then nestingFrom .escaped opened s
    else nestingFrom .quoted opened s
  | .outside, opened, c :: s =>
    if c = '"' then nestingFrom .quoted opened s
    else if c = '[' ∨ c = '\x7b' then nestingFrom .outside (opened + 1) s
    else if c = ']' ∨ c = '\x7d' then max opened (nestingFrom .outside (opened - 1) s)
    else nestingFrom .outside opened s

/-- Greatest number of lists and records open at once in a text. -/
def nesting (s : String) : Nat := nestingFrom .outside 0 s.toList

section Nesting


theorem le_nestingFrom (look : Look) (opened : Nat) (s : List Char) : opened ≤ nestingFrom look opened s := by
  fun_induction nestingFrom look opened s <;> omega

theorem nestingFrom_blank (hb : Blank blanks) :
    nestingFrom .outside opened (blanks ++ rest) = nestingFrom .outside opened rest := by
  induction blanks with
  | nil => rfl
  | cons c blanks ih =>
    obtain ⟨hc, hblanks⟩ := List.forall_mem_cons.mp hb
    have hmark : c ≠ '"' ∧ ¬ (c = '[' ∨ c = '\x7b') ∧ ¬ (c = ']' ∨ c = '\x7d') := by
      refine ⟨?_, ?_, ?_⟩
      · rintro rfl
        cases hc
      · rintro (rfl | rfl) <;> cases hc
      · rintro (rfl | rfl) <;> cases hc
    rw [List.cons_append, nestingFrom, if_neg hmark.1, if_neg hmark.2.1, if_neg hmark.2.2]
    exact ih hblanks

theorem nestingFrom_plain (h : ∀ d ∈ ds, d ≠ '"' ∧ d ≠ '\\') :
    nestingFrom .quoted opened (ds ++ rest) = nestingFrom .quoted opened rest := by
  induction ds with
  | nil => rfl
  | cons d ds ih =>
    obtain ⟨hd, hds⟩ := List.forall_mem_cons.mp h
    rw [List.cons_append, nestingFrom, if_neg hd.1, if_neg hd.2]
    exact ih hds

theorem hexText_plain (width n : Nat) : ∀ d ∈ Text.hexText width n, d ≠ '"' ∧ d ≠ '\\' := by
  have hdigit : ∀ m < 16, Nat.digitChar m ≠ '"' ∧ Nat.digitChar m ≠ '\\' := by decide
  induction width generalizing n with
  | zero => exact List.forall_mem_nil _
  | succ width ih => exact List.forall_mem_append.mpr ⟨ih _, List.forall_mem_singleton.mpr (hdigit _ (by omega))⟩

theorem nestingFrom_escapeChar (c : Char) :
    nestingFrom .quoted opened (escapeChar c ++ rest) = nestingFrom .quoted opened rest := by
  unfold escapeChar
  split
  iterate 7 rfl
  next hquote hback _ _ _ _ _ =>
    split
    · show nestingFrom .quoted opened (Text.hexText 4 c.toNat ++ rest) = _
      exact nestingFrom_plain (hexText_plain 4 c.toNat)
    · exact nestingFrom_plain (List.forall_mem_singleton.mpr ⟨hquote, hback⟩)

theorem nestingFrom_quote (t : String) :
    nestingFrom .outside opened (quote t ++ rest) = nestingFrom .outside opened rest := by
  have hinside : ∀ cs : List Char, nestingFrom .quoted opened (cs.flatMap escapeChar ++ '"' :: rest) =
      nestingFrom .outside opened rest := by
    intro cs
    induction cs with
    | nil => rfl
    | cons c cs ih => rw [List.flatMap_cons, List.append_assoc, nestingFrom_escapeChar, ih]
  rw [quote, List.cons_append, List.cons_append, List.append_assoc]
  exact hinside t.toList

theorem nestingFrom_name (name : String) :
    nestingFrom .outside opened (nameText name rest) = nestingFrom .outside opened rest := by
  rw [nameText, nestingFrom_quote]
  rfl

theorem nestingFrom_close (hb : Blank blanks) (hc : c = ']' ∨ c = '\x7d') :
    nestingFrom .outside (opened + 1) (blanks ++ c :: rest) = max (opened + 1) (nestingFrom .outside opened rest) := by
  rw [nestingFrom_blank hb]
  rcases hc with rfl | rfl <;> rfl

mutual

theorem nestingFrom_render (t : Tree) (level opened : Nat) (rest : List Char) :
    nestingFrom .outside opened (t.render level ++ rest) =
      max (opened + t.depth) (nestingFrom .outside opened rest) := by
  have hrest := le_nestingFrom .outside opened rest
  cases t with
  | text s =>
    rw [render, nestingFrom_quote, depth]
    omega
  | list ts =>
    cases ts with
    | nil =>
      show nestingFrom .outside (opened + 1) ([] ++ ']' :: rest) = _
      rw [nestingFrom_close blank_nil (.inl rfl), depth, depthItems]
    | cons t ts =>
      rw [render_list_cons]
      show nestingFrom .outside (opened + 1) (newline (level + 1) ++ _) = _
      rw [nestingFrom_blank (blank_newline _), nestingFrom_render t, nestingFrom_renderItems ts,
        nestingFrom_close (blank_newline _) (.inl rfl), depth, depthItems]
      omega
  | record fs =>
    cases fs with
    | nil =>
      show nestingFrom .outside (opened + 1) ([] ++ '\x7d' :: rest) = _
      rw [nestingFrom_close blank_nil (.inr rfl), depth, depthFields]
    | cons f fs =>
      obtain ⟨k, t⟩ := f
      rw [render_record_cons]
      show nestingFrom .outside (opened + 1) (newline (level + 1) ++ _) = _
      rw [nestingFrom_blank (blank_newline _), nestingFrom_name, nestingFrom_render t, nestingFrom_renderFields fs,
        nestingFrom_close (blank_newline _) (.inr rfl), depth, depthFields]
      omega

theorem nestingFrom_renderItems (ts : List Tree) (level opened : Nat) (rest : List Char) :
    nestingFrom .outside opened (renderItems level ts ++ rest) =
      max (opened + depthItems ts) (nestingFrom .outside opened rest) := by
  have hrest := le_nestingFrom .outside opened rest
  cases ts with
  | nil =>
    rw [renderItems, depthItems, List.nil_append]
    omega
  | cons t ts =>
    rw [renderItems_cons]
    show nestingFrom .outside opened (newline level ++ _) = _
    rw [nestingFrom_blank (blank_newline _), nestingFrom_render t, nestingFrom_renderItems ts, depthItems]
    omega

theorem nestingFrom_renderFields (fs : List (String × Tree)) (level opened : Nat) (rest : List Char) :
    nestingFrom .outside opened (renderFields level fs ++ rest) =
      max (opened + depthFields fs) (nestingFrom .outside opened rest) := by
  have hrest := le_nestingFrom .outside opened rest
  cases fs with
  | nil =>
    rw [renderFields, depthFields, List.nil_append]
    omega
  | cons f fs =>
    obtain ⟨k, t⟩ := f
    rw [renderFields_cons]
    show nestingFrom .outside opened (newline level ++ _) = _
    rw [nestingFrom_blank (blank_newline _), nestingFrom_name, nestingFrom_render t, nestingFrom_renderFields fs,
      depthFields]
    omega

end

theorem nesting_render (t : Tree) (level : Nat) : nesting (String.ofList (t.render level)) = t.depth := by
  have htext := nestingFrom_render t level 0 []
  rw [List.append_nil] at htext
  rw [nesting, String.toList_ofList, htext, nestingFrom]
  omega

end Nesting

end Blockwork.JsonText
