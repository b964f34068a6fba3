import TypeAtlas.Declaration.Descriptor

/-!
# Annotations

Tokens that annotate a declaration (`_In_opt_`, `[out]`, ...) are taken out of its text, each with
the parenthesised argument that may follow it, and leave their marks on the type. The tokens of a
table are taken out one after the other, so a token stands before every token that it contains.

## Main definitions

* `Annotation` — a token with the marks it leaves.
* `Annotation.builtin` — the table of the known tokens.
* `Annotation.insert`, `Annotation.withExtras` — a table with further tokens that leave no mark.
* `Annotation.strip`, `Annotation.stripAll` — the text without a token, and without all of a table.
-/

namespace TypeAtlas

open Text

/-- A token that annotates a declaration. It is not blank, so a text has fewer characters other than
blanks once an occurrence of the token is replaced by a blank. -/
structure Annotation where
  token : List Char
  marks : Marks
  solid : (token.any fun c => !isBlank c) = true

namespace Marks

/-! ## Marks of the known tokens -/

def input : Marks where
  isIn := true

def optionalInput : Marks where
  isIn := true
  isOptional := true

def output : Marks where
  isOut := true

def optionalOutput : Marks where
  isOut := true
  isOptional := true

def inputOutput : Marks where
  isIn := true
  isOut := true

def optionalInputOutput : Marks where
  isIn := true
  isOut := true
  isOptional := true

def comOutput : Marks where
  isOut := true
  isComPointer := true

def optionalComOutput : Marks where
  isOut := true
  isOptional := true
  isComPointer := true

def optional : Marks where
  isOptional := true

end Marks

namespace Annotation

/-- The known tokens, each before every token that it contains: pointers to COM objects, other
pointers, buffers, values, marshalling hints and interface attributes. -/
def builtin : List Annotation :=
  [⟨"_COM_Outptr_result_maybenull_".toList, .optionalComOutput, by decide⟩,
   ⟨"_COM_Outptr_opt_result_maybenull_".toList, .optionalComOutput, by decide⟩,
   ⟨"_COM_Outptr_opt_".toList, .optionalComOutput, by decide⟩,
   ⟨"_COM_Outptr_".toList, .comOutput, by decide⟩,
   ⟨"_Outptr_result_maybenull_".toList, .optionalOutput, by decide⟩,
   ⟨"_Outptr_result_buffer_".toList, .output, by decide⟩,
   ⟨"_Outptr_opt_".toList, .optionalOutput, by decide⟩,
   ⟨"_Outptr_".toList, .output, by decide⟩,
   ⟨"_Out_writes_bytes_opt_".toList, .optionalOutput, by decide⟩,
   ⟨"_Out_writes_bytes_".toList, .output, by decide⟩,
   ⟨"_Out_writes_opt_".toList, .optionalOutput, by decide⟩,
   ⟨"_Out_writes_".toList, .output, by decide⟩,
   ⟨"_In_reads_bytes_opt_".toList, .optionalInput, by decide⟩,
   ⟨"_In_reads_bytes_".toList, .input, by decide⟩,
   ⟨"_In_reads_opt_".toList, .optionalInput, by decide⟩,
   ⟨"_In_reads_".toList, .input, by decide⟩,
   ⟨"_Inout_opt_".toList, .optionalInputOutput, by decide⟩,
   ⟨"_Inout_".toList, .inputOutput, by decide⟩,
   ⟨"_In_opt_z_".toList, .optionalInput, by decide⟩,
   ⟨"_In_opt_".toList, .optionalInput, by decide⟩,
   ⟨"_In_z_".toList, .input, by decide⟩,
   ⟨"_Out_opt_".toList, .optionalOutput, by decide⟩,
   ⟨"_In_".toList, .input, by decide⟩,
   ⟨"_Out_".toList, .output, by decide⟩,
   ⟨"_Ret_maybenull_".toList, .optional, by decide⟩,
   ⟨"_Reserved_".toList, {}, by decide⟩,
   ⟨"__RPC__deref_out_opt".toList, .optionalOutput, by decide⟩,
   ⟨"__RPC__deref_out".toList, .output, by decide⟩,
   ⟨"__RPC__in_opt".toList, .optionalInput, by decide⟩,
   ⟨"__RPC__in".toList, .input, by decide⟩,
   ⟨"__RPC__out".toList, .output, by decide⟩,
   ⟨"[out, retval]".toList, .output, by decide⟩,
   ⟨"[out,retval]".toList, .output, by decide⟩,
   ⟨"[in, out]".toList, .inputOutput, by decide⟩,
   ⟨"[in,out]".toList, .inputOutput, by decide⟩,
   ⟨"[optional]".toList, .optional, by decide⟩,
   ⟨"[in]".toList, .input, by decide⟩,
   ⟨"[out]".toList, .output, by decide⟩]

/-! ## Tables with further tokens -/

/-- The table with one more annotation, before the first one whose token it contains. -/
def place (new : Annotation) : List Annotation → List Annotation
  | [] => [new]
  | a :: table =>
    if occursIn a.token new.token then new :: a :: table else a :: place new table

/-- The table with a token that leaves no mark. A token that is blank or already there adds
nothing. -/
def insert (table : List Annotation) (extra : String) : List Annotation :=
  let token := trim extra.toList
  if solid : (token.any fun c => !isBlank c) = true then
    if table.any (·.token == token) then table else place ⟨token, {}, solid⟩ table
  else
    table

/-- The known tokens together with further ones. -/
def withExtras (extras : List String) : List Annotation :=
  extras.foldl insert builtin

/-! ## Taking tokens out -/

/-- What follows the parenthesis that closes the outermost open one of `depth` many. -/
def afterClosing? (depth : Nat) : List Char → Option (List Char)
  | [] => none
  | c :: cs =>
    if c = '(' then afterClosing? (depth + 1) cs
    else if c = ')' then (if depth ≤ 1 then some cs else afterClosing? (depth - 1) cs)
    else afterClosing? depth cs

/-- The text without the parenthesised argument that it starts with, if there is a whole one. -/
def dropArgument (s : List Char) : List Char :=
  match s with
  | '(' :: _ => (afterClosing? 0 s).getD s
  | _ => s

theorem afterClosing?_suffix {depth : Nat} {s r : List Char} (h : afterClosing? depth s = some r) :
    r <:+ s := by
  induction s generalizing depth with
  | nil => simp [afterClosing?] at h
  | cons c cs ih =>
    unfold afterClosing? at h
    split at h
    · exact (ih h).trans (List.suffix_cons c cs)
    · split at h
      · split at h
        · obtain rfl : cs = r := by simpa using h
          exact List.suffix_cons c cs
        · exact (ih h).trans (List.suffix_cons c cs)
      · exact (ih h).trans (List.suffix_cons c cs)

theorem dropArgument_suffix (s : List Char) : dropArgument s <:+ s := by
  unfold dropArgument
  split
  · next cs =>
    cases h : afterClosing? 0 ('(' :: cs) with
    | none => exact List.suffix_refl _
    | some r => exact afterClosing?_suffix h
  · exact List.suffix_refl _

/-- Taking out an occurrence of a token leaves fewer characters other than blanks. -/
theorem countP_strip_lt (a : Annotation) {s before after : List Char}
    (h : cutAt? a.token s = some (before, after)) :
    (before ++ ' ' :: dropArgument after).countP (fun c => !isBlank c)
      < s.countP (fun c => !isBlank c) := by
  have hs := eq_of_cutAt? h
  have hd := List.Sublist.countP_le (p := fun c => !isBlank c) (dropArgument_suffix after).sublist
  have ht : 0 < a.token.countP (fun c => !isBlank c) := by
    simpa [List.countP_pos_iff, List.any_eq_true] using a.solid
  have hblank : (!isBlank ' ') = false := rfl
  simp only [hs, List.countP_append, List.countP_cons, hblank]
  simp only [Bool.false_eq_true, if_false]
  omega

/-- The text with a blank for every occurrence of the token, and whether there was one. An
occurrence that comes up between the parts around an earlier one is taken out as well. -/
def strip (a : Annotation) (s : List Char) : List Char × Bool :=
  match _found : cutAt? a.token s with
  | none => (s, false)
  | some (before, after) => ((a.strip (before ++ ' ' :: dropArgument after)).1, true)
termination_by s.countP fun c => !isBlank c
decreasing_by exact countP_strip_lt a _found

/-- One token taken out of a text, its marks added to those found before. -/
def stripStep (found : List Char × Marks) (a : Annotation) : List Char × Marks :=
  match a.strip found.1 with
  | (s, true) => (s, found.2.union a.marks)
  | (s, false) => (s, found.2)

/-- The text without the tokens of a table, and the marks that they leave. -/
def stripAll (table : List Annotation) (s : List Char) : List Char × Marks :=
  table.foldl stripStep (s, {})

end Annotation

end TypeAtlas
