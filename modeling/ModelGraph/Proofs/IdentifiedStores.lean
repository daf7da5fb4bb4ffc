import ModelGraph.Proofs.IdentifiedDomains
import ModelGraph.Store.Database

namespace ModelGraph

open HashInput

theorem TablePointer.toJson_eq {s t : TablePointer} (h : Agree s.hashInput t.hashInput) :
    s.toJson Link.path = t.toJson Link.path := by
  simp only [hashInput, List.append_assoc] at h
  obtain ⟨hdatabase, h⟩ := delimits_text h.tail
  obtain ⟨hschema, h⟩ := delimits_text h
  rw [toJson, toJson, Reference.toJson_path hdatabase, hschema, delimits_text.rel h]

namespace JoinPointer

theorem delimits :
    Delimits (fun p q => p.toJson Link.path = q.toJson Link.path) JoinPointer.hashInput := by
  intro p q x y h
  simp only [hashInput, List.append_assoc] at h
  obtain ⟨hdatabase, h⟩ := delimits_text h
  obtain ⟨hname, h⟩ := delimits_text h
  obtain ⟨htype, h⟩ := delimits_optText h
  refine ⟨?_, h⟩
  dsimp only
  rw [toJson, toJson, Reference.toJson_path hdatabase, hname, htype]

theorem not_agree_optCode {o : Option Digest} {p : JoinPointer} {y : HashInput}
    (h : Agree (optCode o) (p.hashInput ++ y)) : False := by
  have hlength := h.length_eq
  have hname := length_text p.name
  simp only [hashInput, List.append_assoc, List.length_append] at hlength h
  cases o with
  | none =>
    have hone : (optCode none).length = 1 := rfl
    omega
  | some d =>
    have hfirst : (optCode (some d)).take 8 = word (8193 : Nat) := by
      change (1 :: (word (d.bytes.toList.length : Nat) ++ d.bytes.toList)).take 8 = _
      rw [Vector.length_toList]
      rfl
    have hword := congrArg (List.take 8) h.2
    rw [hfirst, text, block, List.append_assoc, List.take_left' (length_word _)] at hword
    have hshort : (optCode (some d)).length = 41 := congrArg (· + 1) (length_code d)
    have htext := length_block p.database.path.text.toUTF8.toList
    rw [← text] at htext
    have hsize : 8193 < UInt64.size := by decide
    have hcount := word_natCast_inj (by omega) (by omega) hword
    omega

theorem joins_optCode {ps qs : List JoinPointer} {o o' : Option Digest}
    (h : Agree (ps.flatMap hashInput ++ optCode o) (qs.flatMap hashInput ++ optCode o')) :
    ps.map (·.toJson Link.path) = qs.map (·.toJson Link.path) ∧ o = o' := by
  induction ps generalizing qs with
  | nil =>
    cases qs with
    | nil => exact ⟨rfl, delimits_optCode.rel h⟩
    | cons q qs =>
      rw [List.flatMap_cons, List.append_assoc] at h
      exact (not_agree_optCode h).elim
  | cons p ps ih =>
    cases qs with
    | nil =>
      rw [List.flatMap_cons, List.append_assoc] at h
      exact (not_agree_optCode h.symm).elim
    | cons q qs =>
      rw [List.flatMap_cons, List.flatMap_cons, List.append_assoc, List.append_assoc] at h
      obtain ⟨hpq, h⟩ := delimits h
      obtain ⟨hrest, ho⟩ := ih h
      rw [List.map_cons, List.map_cons, hpq, hrest]
      exact ⟨rfl, ho⟩

end JoinPointer

namespace RelationalOperation

mutual

def inputs : RelationalOperation → List HashInput
  | .column table tableAlias name =>
    [hashInput (.column table tableAlias name), table.hashInput]
  | .call name parameters => hashInput (.call name parameters) :: inputsOf parameters
  | .literal value => [hashInput (.literal value)]
  | .joined joins none => [hashInput (.joined joins none)]
  | .joined joins (some element) => hashInput (.joined joins (some element)) :: element.inputs

def inputsOf : List RelationalOperation → List HashInput
  | [] => []
  | o :: rest => o.inputs ++ inputsOf rest

end

theorem mem_inputs (o : RelationalOperation) : o.hashInput ∈ o.inputs := by
  cases o with
  | joined joins element => cases element <;> simp [inputs]
  | _ => simp [inputs]

def label : RelationalOperation → String
  | .column _ _ _ => "column"
  | .call _ _ => "dynaFunc"
  | .literal _ => "literal"
  | .joined _ _ => "elemtWithJoins"

def fields : RelationalOperation → HashInput
  | .column table tableAlias name => .code table.digest ++ .text tableAlias ++ .text name
  | .call name parameters => .text name ++ .codes (digests parameters)
  | .literal value => .json value
  | .joined joins element =>
    joins.flatMap JoinPointer.hashInput ++ .optCode (element.map RelationalOperation.digest)

theorem hashInput_eq (o : RelationalOperation) :
    o.hashInput = .tag .relationalOperation ++ (.text o.label ++ o.fields) := by
  cases o with
  | joined joins element => cases element <;> simp [hashInput, label, fields, digest]
  | _ => simp [hashInput, label, fields]

theorem fields_agree {o p : RelationalOperation} (h : Agree o.hashInput p.hashInput) :
    o.label = p.label ∧ Agree o.fields p.fields := by
  rw [hashInput_eq, hashInput_eq] at h
  exact delimits_text h.tail

mutual

theorem sameText (o p : RelationalOperation) (apart : Apart o.inputs p.inputs)
    (h : o.digest = p.digest) : (o.toJson Link.path).SameText (p.toJson Link.path) := by
  obtain ⟨hlabel, hfields⟩ := fields_agree (apart.agree o.mem_inputs p.mem_inputs h)
  cases o with
  | column table tableAlias name =>
    cases p with
    | column table' tableAlias' name' =>
      rw [inputs, inputs] at apart
      simp only [fields, List.append_assoc] at hfields
      obtain ⟨htable, hfields⟩ := delimits_code hfields
      obtain ⟨halias, hfields⟩ := delimits_text hfields
      rw [toJson, toJson, TablePointer.toJson_eq (apart.tail.head htable), halias,
        delimits_text.rel hfields]
      exact .refl _
    | _ => exact absurd hlabel (by simp [label])
  | call name parameters =>
    cases p with
    | call name' parameters' =>
      rw [inputs, inputs] at apart
      simp only [fields] at hfields
      obtain ⟨hname, hfields⟩ := delimits_text hfields
      have hparameters := sameTexts parameters parameters' apart.tail (delimits_codes.rel hfields)
      rw [toJson, toJson, hname]
      exact .tagged _ (.append (.refl _) (.listField _ hparameters))
    | _ => exact absurd hlabel (by simp [label])
  | literal value =>
    cases p with
    | literal value' =>
      rw [toJson, toJson]
      exact .tagged _ (.field _ (delimits_json.rel hfields))
    | _ => exact absurd hlabel (by simp [label])
  | joined joins element =>
    cases p with
    | joined joins' element' =>
      obtain ⟨hjoins, helement⟩ := JoinPointer.joins_optCode hfields
      cases element with
      | none =>
        cases element' with
        | none =>
          rw [toJson, toJson, hjoins]
          exact .refl _
        | some e' => simp at helement
      | some e =>
        cases element' with
        | none => simp at helement
        | some e' =>
          rw [inputs, inputs] at apart
          rw [Option.map_some, Option.map_some, Option.some.injEq] at helement
          have he := sameText e e' apart.tail helement
          rw [toJson, toJson, hjoins]
          exact .tagged _ (.append (.refl _) (.field _ he))
    | _ => exact absurd hlabel (by simp [label])

theorem sameTexts (os ps : List RelationalOperation) (apart : Apart (inputsOf os) (inputsOf ps))
    (h : digests os = digests ps) :
    List.Forall₂ Json.SameText (toJsons Link.path os) (toJsons Link.path ps) := by
  cases os with
  | nil =>
    cases ps with
    | nil => exact .nil
    | cons p ps => simp [digests] at h
  | cons o os =>
    cases ps with
    | nil => simp [digests] at h
    | cons p ps =>
      rw [inputsOf, inputsOf] at apart
      rw [digests, digests, List.cons.injEq] at h
      rw [toJsons, toJsons]
      exact .cons (sameText o p apart.left h.1) (sameTexts os ps apart.right h.2)

end

end RelationalOperation

theorem Column.eq_of_hashInput {c d : Column} (h : Agree c.hashInput d.hashInput) : c = d := by
  simp only [hashInput, List.append_assoc] at h
  obtain ⟨hname, h⟩ := delimits_text h.tail
  obtain ⟨htype, h⟩ := delimits_text h
  have hnullable := delimits_flag.rel h
  obtain ⟨name, dataType, nullable⟩ := c
  cases hname
  cases htype
  cases hnullable
  rfl

namespace Table

def inputs (t : Table) : List HashInput := t.hashInput :: t.columns.map Column.hashInput

theorem eq_of_digest {t u : Table} (apart : Apart t.inputs u.inputs) (h : t.digest = u.digest) :
    t = u := by
  have hagree := apart.head h
  simp only [hashInput, List.append_assoc] at hagree
  obtain ⟨hname, hagree⟩ := delimits_text hagree.tail
  obtain ⟨hcolumns, hagree⟩ := delimits_codes hagree
  have hkey := delimits_texts.rel hagree
  have hc := eq_of_forall₂
    (apart.tail.forall₂_map hcolumns fun _ _ _ _ => Column.eq_of_hashInput)
  obtain ⟨name, columns, primaryKey⟩ := t
  cases hname
  cases hc
  cases hkey
  rfl

end Table

namespace Schema

def inputs (s : Schema) : List HashInput := s.hashInput :: s.tables.flatMap Table.inputs

theorem eq_of_digest {s t : Schema} (apart : Apart s.inputs t.inputs) (h : s.digest = t.digest) :
    s = t := by
  have hagree := apart.head h
  simp only [hashInput, List.append_assoc] at hagree
  obtain ⟨hname, hagree⟩ := delimits_text hagree.tail
  have htables := delimits_codes.rel hagree
  have ht := eq_of_forall₂ (apart.tail.forall₂ htables fun _ _ _ _ => Table.eq_of_digest)
  obtain ⟨name, tables⟩ := s
  cases hname
  cases ht
  rfl

end Schema

namespace Join

def inputs (j : Join) : List HashInput := j.hashInput :: j.operation.inputs

theorem sameText {j k : Join} (apart : Apart j.inputs k.inputs) (h : j.digest = k.digest) :
    (j.toJson Link.path).SameText (k.toJson Link.path) := by
  have hagree := apart.head h
  simp only [hashInput, List.append_assoc] at hagree
  obtain ⟨hname, hagree⟩ := delimits_text hagree.tail
  have hoperation := RelationalOperation.sameText j.operation k.operation apart.tail
    (delimits_code.rel hagree)
  rw [toJson, toJson, hname]
  exact .record (.append (.refl _) (.field _ hoperation))

end Join

namespace Database

def inputs (path : Path) (d : Database) : List HashInput :=
  d.hashInput path :: (d.includes.map Reference.hashInput ++
    (d.schemas.flatMap Schema.inputs ++ d.joins.flatMap Join.inputs))

theorem sameText {path path' : Path} {d e : Database}
    (apart : Apart (d.inputs path) (e.inputs path'))
    (h : Agree (d.hashInput path) (e.hashInput path')) :
    path = path' ∧ ∀ {j k}, d.toJson Link.path = .ok j → e.toJson Link.path = .ok k →
      j.SameText k := by
  simp only [hashInput, List.append_assoc] at h
  obtain ⟨hpath, h⟩ := delimits_text h.tail
  obtain ⟨hincludes, h⟩ := delimits_codes h
  obtain ⟨hschemas, h⟩ := delimits_codes h
  have hi := Reference.toJsons_path apart.tail.left hincludes
  have hs := eq_of_forall₂ (apart.tail.right.left.forall₂ hschemas fun _ _ _ _ => Schema.eq_of_digest)
  have hj : List.Forall₂ Json.SameText (d.joins.map (·.toJson Link.path))
      (e.joins.map (·.toJson Link.path)) := by
    rw [List.forall₂_map_left_iff, List.forall₂_map_right_iff]
    exact apart.tail.right.right.forall₂ (delimits_codes.rel h) fun _ _ _ _ => Join.sameText
  refine ⟨Path.ext hpath, ?_⟩
  intro j k hd he
  rw [toJson, hi, hs] at hd
  rw [toJson] at he
  cases hmap : e.schemas.mapM Schema.toJson with
  | error bad =>
    rw [hmap] at he
    cases he
  | ok schemas =>
    rw [hmap] at hd he
    cases hd
    cases he
    exact .record (.append (.refl _) (.listField _ hj))

end Database
end ModelGraph
