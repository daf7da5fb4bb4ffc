import ModelGraph.Proofs.PathAlgebra
import ModelGraph.Proofs.QuotedTexts

namespace ModelGraph

mutual

def Json.deepMembers : Json → List (String × Json)
  | .arr items => Json.itemMembers items
  | .obj members => Json.memberMembers members
  | _ => []

def Json.itemMembers : List Json → List (String × Json)
  | [] => []
  | j :: rest => j.deepMembers ++ Json.itemMembers rest

def Json.memberMembers : List (String × Json) → List (String × Json)
  | [] => []
  | (k, v) :: rest => (k, v) :: (v.deepMembers ++ Json.memberMembers rest)

end

namespace Path

theorem mem_cut {s : List Char} {c : Char} (h : c ∈ s) :
    c = ':' ∨ ∃ segment ∈ cut s, c ∈ segment := by
  fun_induction cut s with
  | case1 rest ih =>
    simp only [List.mem_cons] at h ⊢
    rcases h with rfl | rfl | h
    · exact .inl rfl
    · exact .inl rfl
    · obtain hcolon | ⟨segment, hs, hc⟩ := ih h
      · exact .inl hcolon
      · exact .inr ⟨segment, .inr hs, hc⟩
  | case2 d rest _ hcut ih =>
    rcases List.mem_cons.mp h with rfl | h
    · exact .inr ⟨[c], List.mem_cons_self, List.mem_cons_self⟩
    · obtain hcolon | ⟨s, hs, -⟩ := ih h
      · exact .inl hcolon
      · rw [hcut] at hs
        cases hs
  | case3 d rest _ segment segments hcut ih =>
    rcases List.mem_cons.mp h with rfl | h
    · exact .inr ⟨_, List.mem_cons_self, List.mem_cons_self⟩
    · obtain hcolon | ⟨s, hs, hc⟩ := ih h
      · exact .inl hcolon
      · rw [hcut] at hs
        rcases List.mem_cons.mp hs with rfl | hs
        · exact .inr ⟨_, List.mem_cons_self, List.mem_cons_of_mem _ hc⟩
        · exact .inr ⟨s, List.mem_cons_of_mem _ hs, hc⟩
  | case4 => cases h

theorem isBlank_of_fault?_eq_none {p : Path} (h : p.fault? = none) {c : Char}
    (hc : c ∈ p.text.toList) : Text.isBlank c = false := by
  rcases mem_cut hc with rfl | ⟨segment, hs, hc⟩
  · rfl
  · exact (segmentFault?_eq_none.mp (fault?_eq_none.mp h segment hs)).2.2 c hc

end Path

namespace Span

open Json

def needle (p : String) : List Char := '"' :: (p.toList ++ ['"'])

/-- A text, with what precedes it, has the needle of a path as the value of a member `path`. -/
def GivesPath (p : String) (b t : List Char) : Prop :=
  ∃ x ∈ occurrences (needle p) 0 b t, followsPathKey x = true

variable {p s k : String} {b t u w : List Char} {c : Char}

theorem givesPath_of_head (hw : '"' ∉ w) :
    GivesPath p b (w ++ u) ↔ GivesPath p (w.reverse ++ b) u := by
  rw [GivesPath, needle, occurrences_append_of_head hw]
  rfl

theorem givesPath_cons (hc : c ≠ '"') : GivesPath p b (c :: u) ↔ GivesPath p (c :: b) u :=
  givesPath_of_head (w := [c]) (by simpa using hc.symm)

theorem givesPath_of_last (hw : '"' ∉ w) : GivesPath p b (t ++ w) ↔ GivesPath p b t := by
  rw [GivesPath, needle, ← List.cons_append, occurrences_append_of_last hw]
  rfl

theorem not_givesPath (hw : '"' ∉ w) : ¬GivesPath p b w := by
  rintro ⟨x, hx, -⟩
  have hquote : '"' ∈ needle p := List.mem_cons_self
  rw [occurrences_eq_nil hquote hw] at hx
  cases hx

theorem notMem_needle (hp : ∀ c ∈ p.toList, Text.isBlank c = false) (hc : Text.isBlank c = true) :
    c ∉ needle p := by
  intro hmem
  simp only [needle, List.mem_cons, List.mem_append, List.not_mem_nil, or_false] at hmem
  rcases hmem with rfl | hmem | rfl
  · exact absurd hc (by decide)
  · rw [hp c hmem] at hc
    cases hc
  · exact absurd hc (by decide)

theorem givesPath_append (hp : ∀ c ∈ p.toList, Text.isBlank c = false)
    (hc : Text.isBlank c = true) :
    GivesPath p b (t ++ c :: u) ↔ GivesPath p b t ∨ GivesPath p (t.reverse ++ b) (c :: u) := by
  rw [GivesPath, occurrences_append (notMem_needle hp hc) (Nat.zero_le _)]
  simp only [List.mem_append, or_and_right, exists_or, GivesPath]

theorem occurrences_needle (p : String) (u b : List Char) :
    occurrences (needle p) 0 b (needle p ++ u) =
      b :: occurrences (needle p) ((needle p).length - 1) ('"' :: b) (p.toList ++ ['"'] ++ u) := by
  have hstarts : (needle p).isPrefixOf (needle p ++ u) = true := by
    rw [List.isPrefixOf_iff_prefix]
    exact List.prefix_append _ _
  exact if_pos hstarts

theorem followsPathKey_of_blank (hw : ∀ c ∈ w, Text.isBlank c = true) :
    followsPathKey (w ++ b) = followsPathKey b := by
  rw [followsPathKey, followsPathKey, List.dropWhile_append_of_pos hw]

theorem followsPathKey_cons (hc : Text.isBlank c = false) (hne : c ≠ ':') :
    followsPathKey (c :: b) = false := by
  rw [followsPathKey, List.dropWhile_cons_of_neg (by rw [hc]; exact Bool.false_ne_true)]
  split
  · next heq => exact absurd (List.cons.inj heq).1 hne
  · rfl

theorem isBlank_newline {level : Nat} : ∀ c ∈ (newline level).reverse, Text.isBlank c = true := by
  intro c hc
  rw [List.mem_reverse, newline, List.mem_cons] at hc
  rcases hc with rfl | hc
  · rfl
  · rw [List.eq_of_mem_replicate hc]
    rfl

def IsPathKey (k : String) : Prop := k = "path" ∨ "\"path".toList <:+ k.toList

instance (k : String) : Decidable (IsPathKey k) := inferInstanceAs (Decidable (_ ∨ _))

theorem suffix_flatMap_escaped_iff (hp : ∀ c ∈ p.toList, IsPlain c) :
    '"' :: p.toList <:+ k.toList.flatMap escaped ↔ '"' :: p.toList <:+ k.toList := by
  constructor
  · rintro ⟨x, h⟩
    obtain ⟨before, after, hk, -, hafter⟩ := exists_of_flatMap_escaped h.symm
    have h : String.ofList after = p := by
      rw [← flatMap_escaped_eq_iff hp, String.toList_ofList, hafter]
    exact ⟨before, by rw [hk, ← h, String.toList_ofList]⟩
  · rintro ⟨before, h⟩
    refine ⟨before.flatMap escaped ++ ['\\'], ?_⟩
    rw [← h, List.flatMap_append, List.flatMap_cons, flatMap_escaped_of_isPlain hp]
    simp [escaped]

theorem followsPathKey_member :
    followsPathKey (' ' :: ':' :: ((quoted k).reverse ++ b)) = true ↔ IsPathKey k := by
  have hplain : ∀ c ∈ "path".toList, IsPlain c := by simp [IsPlain]
  have hscan : followsPathKey (' ' :: ':' :: ((quoted k).reverse ++ b)) =
      ("path".toList.reverse ++ ['"']).isPrefixOf
        ((k.toList.flatMap escaped).reverse ++ '"' :: b) := by
    rw [quoted]
    simp only [List.reverse_cons, List.reverse_append, List.reverse_nil, List.nil_append,
      List.cons_append, List.append_assoc]
    rfl
  rw [hscan, List.isPrefixOf_iff_prefix, append_prefix_iff (by decide), IsPathKey,
    ← flatMap_escaped_eq_iff hplain, List.reverse_inj, eq_comm]
  refine or_congr_right ?_
  rw [← List.reverse_cons, List.reverse_prefix]
  exact suffix_flatMap_escaped_iff hplain

/-- A quoted text gives a path only as a whole: inside of it quotes stand behind backslashes. -/
theorem givesPath_quoted (hp : ∀ c ∈ p.toList, IsPlain c) :
    GivesPath p b (quoted s) ↔ s = p ∧ followsPathKey b = true := by
  constructor
  · rintro ⟨x, hx, hkey⟩
    obtain ⟨before, after, ht, rfl⟩ := exists_of_mem_occurrences hx
    cases before with
    | nil =>
      simp only [quoted, needle, List.nil_append, List.cons_append, List.append_assoc,
        List.cons.injEq, true_and] at ht
      rcases List.eq_nil_or_concat after with rfl | ⟨after, d, rfl⟩
      · exact ⟨(flatMap_escaped_eq_iff hp).mp (List.append_cancel_right ht), hkey⟩
      · rw [List.concat_eq_append, ← List.cons_append, ← List.append_assoc] at ht
        obtain ⟨hs, -⟩ := List.append_inj' ht rfl
        obtain ⟨x, y, -, hx, -⟩ := exists_of_flatMap_escaped hs
        have hslash : '\\' ∈ p.toList := by simp [hx]
        exact absurd (hp _ hslash) (by decide)
    | cons q before =>
      simp only [quoted, needle, List.cons_append, List.cons.injEq] at ht
      rcases List.eq_nil_or_concat (p.toList ++ ['"'] ++ after) with hnil | ⟨y, d, hy⟩
      · simp at hnil
      · rw [hy, List.concat_eq_append, ← List.cons_append, ← List.append_assoc] at ht
        obtain ⟨hs, -⟩ := List.append_inj' ht.2 rfl
        obtain ⟨x, z, -, hx, -⟩ := exists_of_flatMap_escaped hs
        rw [hx] at hkey
        simp only [List.reverse_cons, List.reverse_append, List.reverse_nil, List.nil_append,
          List.cons_append, List.append_assoc] at hkey
        rw [followsPathKey_cons (by decide) (by decide)] at hkey
        cases hkey
  · rintro ⟨rfl, hkey⟩
    refine ⟨b, ?_, hkey⟩
    have hneedle := occurrences_needle s [] b
    rw [List.append_nil] at hneedle
    rw [quoted_of_isPlain hp, ← needle, hneedle]
    exact List.mem_cons_self

def Given (p : String) (members : List (String × Json)) : Prop :=
  ∃ m ∈ members, IsPathKey m.1 ∧ m.2 = .str p

theorem not_given_iff {r : List (String × Json)} : ¬Given p r ↔
    ∀ m ∈ r, m.2 = .str p → m.1 ≠ "path" ∧ ¬"\"path".toList <:+ m.1.toList := by
  constructor
  · intro h m hm hvalue
    exact ⟨fun hk => h ⟨m, hm, .inl hk, hvalue⟩, fun hk => h ⟨m, hm, .inr hk, hvalue⟩⟩
  · rintro h ⟨m, hm, hkey, hvalue⟩
    exact hkey.elim (h m hm hvalue).1 (h m hm hvalue).2

theorem given_append {r s : List (String × Json)} : Given p (r ++ s) ↔ Given p r ∨ Given p s := by
  simp only [Given, List.mem_append, or_and_right, exists_or]

theorem not_given_nil : ¬Given p [] := by
  rintro ⟨m, hm, -⟩
  cases hm

theorem given_cons {m : String × Json} {r : List (String × Json)} :
    Given p (m :: r) ↔ (IsPathKey m.1 ∧ m.2 = .str p) ∨ Given p r := by
  simp only [Given, List.mem_cons, or_and_right, exists_or, exists_eq_left]

theorem givesPath_line (hp : ∀ c ∈ p.toList, Text.isBlank c = false) (level : Nat) :
    GivesPath p b (t ++ (newline level ++ u)) ↔
      GivesPath p b t ∨ GivesPath p (t.reverse ++ b) (newline level ++ u) :=
  givesPath_append hp rfl

theorem quote_notMem_newline {level : Nat} : '"' ∉ newline level := by
  rw [newline, List.mem_cons, not_or]
  exact ⟨by decide, fun hmem => absurd (List.eq_of_mem_replicate hmem) (by decide)⟩

theorem givesPath_comma (hp : ∀ c ∈ p.toList, Text.isBlank c = false)
    (h : ∃ level u', u = newline level ++ u') :
    GivesPath p b (t ++ ',' :: u) ↔ GivesPath p b t ∨ GivesPath p (',' :: (t.reverse ++ b)) u := by
  obtain ⟨level, u', rfl⟩ := h
  have hsplit : t ++ ',' :: (newline level ++ u') = t ++ [','] ++ (newline level ++ u') := by simp
  have hcomma : '"' ∉ [','] := by decide
  rw [hsplit, givesPath_line hp, givesPath_of_last hcomma]
  simp

theorem followsPathKey_newline {level : Nat} :
    followsPathKey ((newline level).reverse ++ b) = followsPathKey b :=
  followsPathKey_of_blank isBlank_newline

theorem quote_notMem_number (n : JsonNumber) : '"' ∉ n.chars := fun h =>
  (isNumeric_number n _ h).not_isMark (by simp [IsMark])

theorem indentedItems_eq_newline (level : Nat) (j : Json) (rest : List Json) :
    ∃ level' u, indentedItems level (j :: rest) = newline level' ++ u := by
  cases rest with
  | nil => exact ⟨_, _, rfl⟩
  | cons k rest =>
    rw [indentedItems, List.append_assoc]
    · exact ⟨_, _, rfl⟩
    · nofun

theorem indentedMembers_eq_newline (level : Nat) (m : String × Json) (rest : List (String × Json)) :
    ∃ level' u, indentedMembers level (m :: rest) = newline level' ++ u := by
  cases rest with
  | nil => exact ⟨_, _, by rw [indentedMembers, List.append_assoc]⟩
  | cons n rest =>
    rw [indentedMembers, List.append_assoc]
    · exact ⟨_, _, rfl⟩
    · nofun

theorem givesPath_member (hp : ∀ c ∈ p.toList, IsPlain c)
    (hb : ∀ c ∈ p.toList, Text.isBlank c = false) (hkey : followsPathKey b = false) (level : Nat) :
    GivesPath p b (newline level ++ quoted k ++ ':' :: ' ' :: u) ↔
      GivesPath p (' ' :: ':' :: ((quoted k).reverse ++ ((newline level).reverse ++ b))) u := by
  have hsplit : quoted k ++ ':' :: ' ' :: u = quoted k ++ [':'] ++ ' ' :: u := by simp
  have hcolon : '"' ∉ [':'] := by decide
  rw [List.append_assoc, givesPath_of_head quote_notMem_newline, hsplit, givesPath_append hb rfl,
    givesPath_of_last hcolon, givesPath_quoted hp, followsPathKey_newline, hkey,
    givesPath_cons (by decide)]
  simp

mutual

theorem givesPath_indented (hp : ∀ c ∈ p.toList, IsPlain c)
    (hb : ∀ c ∈ p.toList, Text.isBlank c = false) (level : Nat) (b : List Char) (j : Json) :
    GivesPath p b (indented level j) ↔
      (j = .str p ∧ followsPathKey b = true) ∨ Given p j.deepMembers := by
  have hquoteless {j : Json} (hw : '"' ∉ indented level j) (hj : j ≠ .str p)
      (hd : j.deepMembers = []) : GivesPath p b (indented level j) ↔
        (j = .str p ∧ followsPathKey b = true) ∨ Given p j.deepMembers := by
    simp [not_givesPath hw, hj, hd, not_given_nil]
  cases j with
  | null => exact hquoteless (by rw [indented]; decide) nofun (by rw [deepMembers]; all_goals nofun)
  | bool v =>
    exact hquoteless (by cases v <;> rw [indented] <;> decide) nofun
      (by rw [deepMembers]; all_goals nofun)
  | num n =>
    exact hquoteless (by rw [indented]; exact quote_notMem_number n) nofun
      (by rw [deepMembers]; all_goals nofun)
  | str s =>
    rw [indented, givesPath_quoted hp, deepMembers, Json.str.injEq]
    · simp [not_given_nil]
    all_goals nofun
  | arr items =>
    match items with
    | [] => exact hquoteless (by rw [indented]; decide) nofun rfl
    | j :: rest =>
      have hopen : followsPathKey ('[' :: b) = false := followsPathKey_cons rfl (by decide)
      have hclose : '"' ∉ newline level ++ [']'] := by
        simp [quote_notMem_newline]
      rw [indented, List.append_assoc, givesPath_cons (by decide), givesPath_of_last hclose]
      simpa [deepMembers] using givesPath_indentedItems hp hb level _ hopen (j :: rest)
  | obj members =>
    match members with
    | [] => exact hquoteless (by rw [indented]; decide) nofun rfl
    | m :: rest =>
      have hopen : followsPathKey ('{' :: b) = false := followsPathKey_cons rfl (by decide)
      have hclose : '"' ∉ newline level ++ ['}'] := by
        simp [quote_notMem_newline]
      rw [indented, List.append_assoc, givesPath_cons (by decide), givesPath_of_last hclose]
      simpa [deepMembers] using givesPath_indentedMembers hp hb level _ hopen (m :: rest)

theorem givesPath_indentedItems (hp : ∀ c ∈ p.toList, IsPlain c)
    (hb : ∀ c ∈ p.toList, Text.isBlank c = false) (level : Nat) (b : List Char)
    (hkey : followsPathKey b = false) (items : List Json) :
    GivesPath p b (indentedItems level items) ↔ Given p (itemMembers items) := by
  match items with
  | [] => simp [indentedItems, itemMembers, not_given_nil, not_givesPath]
  | [j] =>
    rw [indentedItems, givesPath_of_head quote_notMem_newline, givesPath_indented hp hb,
      followsPathKey_newline, hkey]
    simp [itemMembers]
  | j :: k :: rest =>
    rw [indentedItems, List.append_assoc, givesPath_of_head quote_notMem_newline,
      givesPath_comma hb (indentedItems_eq_newline level k rest), givesPath_indented hp hb,
      followsPathKey_newline, hkey,
      givesPath_indentedItems hp hb level _ (followsPathKey_cons rfl (by decide)) (k :: rest)]
    · simp [itemMembers, given_append]
    · nofun

theorem givesPath_indentedMembers (hp : ∀ c ∈ p.toList, IsPlain c)
    (hb : ∀ c ∈ p.toList, Text.isBlank c = false) (level : Nat) (b : List Char)
    (hkey : followsPathKey b = false) (members : List (String × Json)) :
    GivesPath p b (indentedMembers level members) ↔ Given p (memberMembers members) := by
  match members with
  | [] => simp [indentedMembers, memberMembers, not_given_nil, not_givesPath]
  | [(k, v)] =>
    rw [indentedMembers, givesPath_member hp hb hkey, givesPath_indented hp hb,
      followsPathKey_member, memberMembers, given_cons]
    simp [memberMembers, and_comm]
  | (k, v) :: m :: rest =>
    rw [indentedMembers, givesPath_member hp hb hkey,
      givesPath_comma hb (indentedMembers_eq_newline level m rest), givesPath_indented hp hb,
      followsPathKey_member,
      givesPath_indentedMembers hp hb level _ (followsPathKey_cons rfl (by decide)) (m :: rest),
      and_comm]
    · simp [memberMembers, given_cons, given_append, or_assoc]
    · nofun

end

end Span

namespace Model

open Json ModelGraph.Span

def entry (e : Entity) : List Char := newline 2 ++ indented 2 e.toJson ++ [',']

/-- The text of a model up to the path of the entity that comes after some entities. -/
def opening (m : Model) : List Char :=
  '{' :: (newline 1 ++ (quoted "entities" ++ ':' :: ' ' :: '[' :: (m.flatMap entry ++
    (newline 2 ++ '{' :: (newline 3 ++ (quoted "path" ++ [':', ' ']))))))

example : opening [] =
    "\x7b\n  \"entities\": [\n    \x7b\n      \"path\": ".toList := by decide

theorem indentedItems_append (level : Nat) (before after : List Json) (j : Json) :
    ∃ rest, indentedItems level (before ++ j :: after) =
      before.flatMap (fun k => newline (level + 1) ++ indented (level + 1) k ++ [',']) ++
        (newline (level + 1) ++ (indented (level + 1) j ++ rest)) := by
  induction before with
  | nil =>
    cases after with
    | nil => exact ⟨[], by simp [indentedItems]⟩
    | cons k after => exact ⟨',' :: indentedItems level (k :: after), by simp [indentedItems]⟩
  | cons k before ih =>
    obtain ⟨rest, ih⟩ := ih
    refine ⟨rest, ?_⟩
    rw [List.cons_append, indentedItems, ih]
    · simp
    · simp

theorem indented_entity (e : Entity) : ∃ rest, indented 2 e.toJson =
    '{' :: (newline 3 ++ (quoted "path" ++ ':' :: ' ' :: (quoted e.path.text ++ rest))) := by
  refine ⟨',' :: (indentedMembers 2
    [("classifierPath", .str e.classifier), ("content", e.content)] ++ (newline 2 ++ ['}'])), ?_⟩
  rw [Entity.toJson, indented, indentedMembers, indented]
  · simp only [List.append_assoc, List.cons_append, Nat.reduceAdd]
  · nofun

theorem indented_entities {items : List Json} (h : items ≠ []) :
    indented 0 (.obj [("entities", .arr items)]) =
      '{' :: (newline 1 ++ (quoted "entities" ++ ':' :: ' ' :: '[' :: (indentedItems 1 items ++
        (newline 1 ++ ']' :: (newline 0 ++ ['}']))))) := by
  rw [indented, indentedMembers]
  cases items with
  | nil => exact absurd rfl h
  | cons j items =>
    rw [indented]
    simp only [List.append_assoc, List.cons_append, List.nil_append, Nat.reduceAdd]

theorem text_eq_opening (before after : Model) (e : Entity) :
    ∃ rest, (text (before ++ e :: after)).toList =
      before.opening ++ (quoted e.path.text ++ rest) := by
  obtain ⟨rest, h⟩ :=
    indentedItems_append 1 (before.map Entity.toJson) (after.map Entity.toJson) e.toJson
  obtain ⟨rest', h'⟩ := indented_entity e
  refine ⟨rest' ++ (rest ++ (newline 1 ++ ']' :: (newline 0 ++ ['}']))), ?_⟩
  rw [text, pretty, String.toList_ofList, toJson, List.map_append, List.map_cons,
    indented_entities (by simp), h, h', List.flatMap_map, opening]
  simp only [List.append_assoc, List.cons_append, List.nil_append, Nat.reduceAdd]
  rfl

variable {p : String} {b u : List Char}

theorem given_entity {e : Entity} (hpath : e.path.text ≠ p) :
    Given p e.toJson.deepMembers ↔ Given p e.content.deepMembers := by
  have hclassifier : ¬IsPathKey "classifierPath" := by decide
  have hcontent : ¬IsPathKey "content" := by decide
  simp [Entity.toJson, deepMembers, memberMembers, given_cons, hpath, hclassifier, hcontent]

theorem givesPath_entries {m : Model} (hp : ∀ c ∈ p.toList, IsPlain c)
    (hb : ∀ c ∈ p.toList, Text.isBlank c = false) (hkey : followsPathKey b = false)
    (hu : ∀ b, followsPathKey b = false → ¬GivesPath p b (newline 2 ++ u)) :
    GivesPath p b (m.flatMap entry ++ (newline 2 ++ u)) ↔
      ∃ e ∈ m, Given p e.toJson.deepMembers := by
  have hnext {m : Model} :
      ∃ level u', m.flatMap entry ++ (newline 2 ++ u) = newline level ++ u' := by
    cases m with
    | nil => exact ⟨_, _, rfl⟩
    | cons e m =>
      exact ⟨2, _, by rw [List.flatMap_cons, entry, List.append_assoc, List.append_assoc,
        List.append_assoc]⟩
  have hcomma {b : List Char} : followsPathKey (',' :: b) = false :=
    followsPathKey_cons rfl (by decide)
  induction m generalizing b with
  | nil => simpa using hu b hkey
  | cons e m ih =>
    have hrest (b : List Char) : GivesPath p (',' :: b) (m.flatMap entry ++ (newline 2 ++ u)) ↔
        ∃ e ∈ m, Given p e.toJson.deepMembers := ih hcomma
    have hsplit : (e :: m).flatMap entry ++ (newline 2 ++ u) =
        newline 2 ++ (indented 2 e.toJson ++ ',' :: (m.flatMap entry ++ (newline 2 ++ u))) := by
      simp [entry]
    rw [hsplit, givesPath_of_head quote_notMem_newline, givesPath_comma hb hnext,
      givesPath_indented hp hb, followsPathKey_newline, hkey, hrest]
    simp

def openingKey (m : Model) : List Char :=
  '{' :: (newline 1 ++ quoted "entities" ++ ':' :: ' ' :: '[' :: (m.flatMap entry ++
    (newline 2 ++ '{' :: (newline 3 ++ (quoted "path" ++ [':'])))))

theorem opening_eq (m : Model) : m.opening = m.openingKey ++ [' '] := by
  simp [opening, openingKey]

theorem givesPath_openingKey {m : Model} (hp : ∀ c ∈ p.toList, IsPlain c)
    (hb : ∀ c ∈ p.toList, Text.isBlank c = false) (hm : ∀ e ∈ m, e.path.text ≠ p) :
    GivesPath p [] m.openingKey ↔ ∃ e ∈ m, Given p e.content.deepMembers := by
  have hbrace {b : List Char} : followsPathKey ('{' :: b) = false :=
    followsPathKey_cons rfl (by decide)
  have hcolon : '"' ∉ [':'] := by decide
  have hown (b : List Char) (_ : followsPathKey b = false) :
      ¬GivesPath p b (newline 2 ++ '{' :: (newline 3 ++ (quoted "path" ++ [':']))) := by
    rw [givesPath_of_head quote_notMem_newline, givesPath_cons (by decide),
      givesPath_of_head quote_notMem_newline, givesPath_of_last hcolon, givesPath_quoted hp,
      followsPathKey_newline, hbrace]
    simp
  rw [openingKey, givesPath_cons (by decide), givesPath_member hp hb hbrace,
    givesPath_cons (by decide), givesPath_entries hp hb (followsPathKey_cons rfl (by decide)) hown]
  exact exists_congr fun e => and_congr_right fun he => given_entity (hm e he)

end Model

namespace Span

open Json

variable {p : String} {t u : List Char}

theorem byteLength_le_of_mem_occurrences {n x : List Char} (h : x ∈ occurrences n 0 [] t) :
    byteLength x ≤ byteLength t := by
  obtain ⟨before, after, rfl, rfl⟩ := exists_of_mem_occurrences h
  simp

theorem locate?_append (hb : ∀ c ∈ p.toList, Text.isBlank c = false) :
    locate? (String.ofList (t ++ ' ' :: u)) ⟨p⟩ =
      let found := occurrences (needle p) 0 [] t ++
        occurrences (needle p) 0 (t.reverse ++ []) (' ' :: u)
      ((found.find? followsPathKey).or found.head?).map fun before =>
        ⟨byteLength before, byteLength (needle p)⟩ := by
  rw [← occurrences_append (notMem_needle hb rfl) (Nat.zero_le _), locate?, String.toList_ofList]
  rfl

theorem locate?_of_givesPath (hb : ∀ c ∈ p.toList, Text.isBlank c = false)
    (hgives : GivesPath p [] t) : ∃ offset ≤ byteLength t,
      locate? (String.ofList (t ++ ' ' :: u)) ⟨p⟩ = some ⟨offset, byteLength (needle p)⟩ := by
  obtain ⟨x, hx⟩ : ∃ x, (occurrences (needle p) 0 [] t).find? followsPathKey = some x := by
    obtain ⟨y, hy, hkey⟩ := hgives
    rw [← Option.isSome_iff_exists, List.find?_isSome]
    exact ⟨y, hy, hkey⟩
  refine ⟨byteLength x, byteLength_le_of_mem_occurrences (List.mem_of_find?_eq_some hx), ?_⟩
  simp only [locate?_append hb, List.find?_append, hx, Option.some_or, Option.map_some]

theorem locate?_of_not_givesPath (hb : ∀ c ∈ p.toList, Text.isBlank c = false)
    (hkey : followsPathKey (' ' :: t.reverse) = true) (hplain : ∀ c ∈ p.toList, IsPlain c)
    (hgives : ¬GivesPath p [] t) :
    locate? (String.ofList (t ++ ' ' :: (quoted p ++ u))) ⟨p⟩ =
      some ⟨byteLength (t ++ [' ']), byteLength (quoted p)⟩ := by
  have hfirst : (occurrences (needle p) 0 [] t).find? followsPathKey = none :=
    List.find?_eq_none.mpr fun x hx hk => hgives ⟨x, hx, hk⟩
  have hown : (occurrences (needle p) 0 (t.reverse ++ []) (' ' :: (quoted p ++ u))).find?
      followsPathKey = some (' ' :: t.reverse) := by
    have hblank : '"' ∉ [' '] := by decide
    have hskip := occurrences_append_of_head (b := t.reverse ++ []) (n := p.toList ++ ['"'])
      (u := quoted p ++ u) hblank
    rw [List.singleton_append, ← needle] at hskip
    rw [hskip, quoted_of_isPlain hplain, ← needle, occurrences_needle]
    simp [hkey]
  simp only [locate?_append hb, List.find?_append, hfirst, hown, Option.none_or, Option.some_or,
    Option.map_some]
  rw [quoted_of_isPlain hplain]
  simp [needle, Nat.add_comm]

/-- A path that stands behind a key `path` is located there exactly if it is written as it is and
nothing before gives it. -/
theorem locate?_eq_iff (hb : ∀ c ∈ p.toList, Text.isBlank c = false)
    (hkey : followsPathKey (' ' :: t.reverse) = true) :
    locate? (String.ofList (t ++ ' ' :: (quoted p ++ u))) ⟨p⟩ =
        some ⟨byteLength (t ++ [' ']), byteLength (quoted p)⟩ ↔
      (∀ c ∈ p.toList, IsPlain c) ∧ ¬GivesPath p [] t := by
  constructor
  · intro h
    refine ⟨byteLength_flatMap_escaped_eq_iff.mp ?_, fun hgives => ?_⟩
    · obtain ⟨x, -, hspan⟩ := Option.map_eq_some_iff.mp h
      simpa [needle, quoted] using (Span.mk.inj hspan).2.symm
    · obtain ⟨offset, hle, hoffset⟩ := locate?_of_givesPath (u := quoted p ++ u) hb hgives
      rw [hoffset, Option.some.injEq, Span.mk.injEq, byteLength_append, byteLength_cons] at h
      have hpos := Char.utf8Size_pos ' '
      omega
  · rintro ⟨hplain, hgives⟩
    exact locate?_of_not_givesPath hb hkey hplain hgives

end Span

namespace Model

open Json ModelGraph.Span

variable {before after : Model} {e : Entity}

theorem text_eq_openingKey (before after : Model) (e : Entity) : ∃ rest,
    text (before ++ e :: after) =
      String.ofList (before.openingKey ++ ' ' :: (quoted e.path.text ++ rest)) := by
  obtain ⟨rest, h⟩ := text_eq_opening before after e
  refine ⟨rest, String.toList_inj.mp ?_⟩
  rw [h, opening_eq, String.toList_ofList, List.append_assoc]
  rfl

theorem followsPathKey_openingKey (m : Model) :
    followsPathKey (' ' :: m.openingKey.reverse) = true := by
  have hkey : m.openingKey = '{' :: (newline 1 ++ quoted "entities" ++ ':' :: ' ' :: '[' ::
      (m.flatMap entry ++ (newline 2 ++ '{' :: newline 3))) ++ (quoted "path" ++ [':']) := by
    simp [openingKey]
  rw [hkey, List.reverse_append, List.reverse_append]
  exact followsPathKey_member.mpr (.inl rfl)

theorem givesPath_opening_iff (hpaths : ((before ++ e :: after).map Entity.path).Nodup)
    (haccepted : e.path.fault? = none) (hplain : ∀ c ∈ e.path.text.toList, IsPlain c) :
    GivesPath e.path.text [] before.openingKey ↔
      ∃ x ∈ before, Given e.path.text x.content.deepMembers := by
  refine givesPath_openingKey hplain (fun c hc => Path.isBlank_of_fault?_eq_none haccepted hc) ?_
  intro x hx heq
  rw [List.map_append, List.nodup_append] at hpaths
  exact hpaths.2.2 _ (List.mem_map_of_mem hx) _ List.mem_cons_self (congrArg Path.mk heq)

/-- An entity is located at its own path exactly if this is written as it is and no entity before
has it as the value of a member that is taken for `path`. -/
theorem locate?_opening_iff (hpaths : ((before ++ e :: after).map Entity.path).Nodup)
    (haccepted : e.path.fault? = none) :
    locate? (text (before ++ e :: after)) e.path =
        some ⟨byteLength before.opening, byteLength (quoted e.path.text)⟩ ↔
      (∀ c ∈ e.path.text.toList, IsPlain c) ∧
        ∀ x ∈ before, ¬Given e.path.text x.content.deepMembers := by
  obtain ⟨rest, htext⟩ := text_eq_openingKey before after e
  rw [htext, opening_eq]
  refine (locate?_eq_iff (fun c hc => Path.isBlank_of_fault?_eq_none haccepted hc)
    (followsPathKey_openingKey before)).trans (and_congr_right fun hplain => ?_)
  rw [givesPath_opening_iff hpaths haccepted hplain]
  simp only [not_exists, not_and]

theorem exists_locate? (hpaths : ((before ++ e :: after).map Entity.path).Nodup)
    (haccepted : e.path.fault? = none) (hplain : ∀ c ∈ e.path.text.toList, IsPlain c) :
    ∃ offset ≤ byteLength before.opening, locate? (text (before ++ e :: after)) e.path =
      some ⟨offset, byteLength (quoted e.path.text)⟩ := by
  by_cases hgiven : ∀ x ∈ before, ¬Given e.path.text x.content.deepMembers
  · exact ⟨_, Nat.le_refl _, (locate?_opening_iff hpaths haccepted).mpr ⟨hplain, hgiven⟩⟩
  · have hgives : GivesPath e.path.text [] before.openingKey := by
      rw [givesPath_opening_iff hpaths haccepted hplain]
      simpa only [not_forall, not_not, exists_prop] using hgiven
    obtain ⟨rest, htext⟩ := text_eq_openingKey before after e
    obtain ⟨offset, hle, hoffset⟩ := locate?_of_givesPath (u := quoted e.path.text ++ rest)
      (fun c hc => Path.isBlank_of_fault?_eq_none haccepted hc) hgives
    refine ⟨offset, ?_, by rw [htext, hoffset, quoted_of_isPlain hplain, needle]⟩
    rw [opening_eq, byteLength_append]
    exact Nat.le_add_right_of_le hle

/-- Where a label of an entity is put, in the text of any model with different paths. The path
stands behind the opening of the entities before it. It is located there exactly if it has no
character that is escaped, and no entity before holds it, at any depth, as the value of a member
`path`, or of one whose key ends like that. A path that has no such character is located in any
case, there or before. -/
theorem locate?_own_path (hpaths : ((before ++ e :: after).map Entity.path).Nodup)
    (haccepted : ∀ x ∈ before ++ e :: after, x.path.fault? = none) :
    (∃ rest, (text (before ++ e :: after)).toList =
      before.opening ++ (quoted e.path.text ++ rest)) ∧
    (locate? (text (before ++ e :: after)) e.path =
        some ⟨byteLength before.opening, byteLength (quoted e.path.text)⟩ ↔
      (∀ c ∈ e.path.text.toList, c ≠ '"' ∧ c ≠ '\\' ∧ 0x20 ≤ c.toNat) ∧
        ∀ x ∈ before, ∀ m ∈ x.content.deepMembers, m.2 = .str e.path.text →
          m.1 ≠ "path" ∧ ¬"\"path".toList <:+ m.1.toList) ∧
    ((∀ c ∈ e.path.text.toList, c ≠ '"' ∧ c ≠ '\\' ∧ 0x20 ≤ c.toNat) →
      ∃ offset ≤ byteLength before.opening, locate? (text (before ++ e :: after)) e.path =
        some ⟨offset, byteLength (quoted e.path.text)⟩) := by
  have he : e.path.fault? = none := haccepted e (by simp)
  refine ⟨text_eq_opening before after e, ?_, exists_locate? hpaths he⟩
  rw [locate?_opening_iff hpaths he]
  exact and_congr_right fun _ => forall₂_congr fun x _ => not_given_iff

def subclassEntity : Entity where
  path := ⟨"B"⟩
  classifier := "meta::pure::metamodel::type::Class"
  content := .obj [("_type", .str "class"), ("name", .str "B"), ("superTypes", .arr [.str "A"])]

def classEntity : Entity where
  path := ⟨"A"⟩
  classifier := "meta::pure::metamodel::type::Class"
  content := .obj [("_type", .str "class"), ("name", .str "A")]

theorem locate?_own_path_class : locate? (text [subclassEntity, classEntity]) ⟨"A"⟩ =
    some ⟨byteLength (opening [subclassEntity]), byteLength (quoted "A")⟩ := by
  have hpaths : (([subclassEntity] ++ classEntity :: []).map Entity.path).Nodup := by decide
  have hmembers : subclassEntity.content.deepMembers =
      [("_type", .str "class"), ("name", .str "B"), ("superTypes", .arr [.str "A"])] := by
    simp [subclassEntity, deepMembers, memberMembers, itemMembers]
  refine (locate?_own_path hpaths (by decide)).2.1.mpr
    ⟨by simp [classEntity], fun x hx m hm hvalue => ?_⟩
  rw [List.mem_singleton.mp hx, hmembers] at hm
  simp only [List.mem_cons, List.not_mem_nil, or_false] at hm
  rcases hm with rfl | rfl | rfl <;> exact absurd hvalue (by simp [classEntity])

def runtimeEntity : Entity where
  path := ⟨"R"⟩
  classifier := "meta::pure::runtime::PackageableRuntime"
  content := .obj [("_type", .str "runtime"), ("name", .str "R"),
    ("runtimeValue", .obj [("mappings",
      .arr [.obj [("path", .str "M"), ("type", .str "MAPPING")]])])]

def mappingEntity : Entity where
  path := ⟨"M"⟩
  classifier := "meta::pure::mapping::Mapping"
  content := .obj [("_type", .str "mapping"), ("name", .str "M")]

theorem pointer_takes_label :
    ([runtimeEntity, mappingEntity].map Entity.path).Nodup ∧
    (∀ x ∈ [runtimeEntity, mappingEntity], x.path.fault? = none) ∧
    locate? (text [runtimeEntity, mappingEntity]) ⟨"M"⟩ ≠
      some ⟨byteLength (opening [runtimeEntity]), byteLength (quoted "M")⟩ := by
  have hpaths : (([runtimeEntity] ++ mappingEntity :: []).map Entity.path).Nodup := by decide
  refine ⟨hpaths, by decide, fun h => ?_⟩
  have hnone := ((locate?_opening_iff hpaths (by decide)).mp h).2
  exact hnone runtimeEntity List.mem_cons_self
    ⟨("path", .str "M"), by simp [runtimeEntity, deepMembers, memberMembers, itemMembers],
      .inl rfl, rfl⟩

end Model
end ModelGraph
