import BouffaloSdk.Kit.Upsert

/-!
# Named contents

A finite map from names to byte strings, kept as a list that can be walked.
`content` is the map; `put` and `remove` act on it as updates.
-/

namespace Kit.Files

variable {ν : Type*} [DecidableEq ν] {files : List (ν × List UInt8)} {name : ν} {bytes : List UInt8}

def content (files : List (ν × List UInt8)) (name : ν) : Option (List UInt8) :=
  (Keyed.lookup Prod.fst files name).map Prod.snd

def put (files : List (ν × List UInt8)) (name : ν) (bytes : List UInt8) : List (ν × List UInt8) :=
  Keyed.upsert Prod.fst files (name, bytes)

def remove (files : List (ν × List UInt8)) (name : ν) : List (ν × List UInt8) :=
  files.filter fun file => file.1 ≠ name

def names (files : List (ν × List UInt8)) : List ν := files.map Prod.fst

theorem content_put (files : List (ν × List UInt8)) (name : ν) (bytes : List UInt8) :
    content (put files name bytes) = Function.update (content files) name (some bytes) := by
  funext other
  unfold content put
  rw [Keyed.lookup_upsert]
  by_cases h : other = name
  · subst h
    rw [Function.update_self, Function.update_self, Option.map_some]
  · rw [Function.update_of_ne h, Function.update_of_ne h]

theorem content_remove (files : List (ν × List UInt8)) (name : ν) :
    content (remove files name) = Function.update (content files) name none := by
  funext other
  induction files with
  | nil =>
    by_cases h : other = name
    · subst h
      rw [Function.update_self]
      rfl
    · rw [Function.update_of_ne h]
      rfl
  | cons file files ih =>
    by_cases h : other = name
    · subst h
      rw [Function.update_self] at ih ⊢
      by_cases hf : file.1 = other
      · simpa [remove, hf] using ih
      · simp [remove, content, Keyed.lookup, hf]
    · rw [Function.update_of_ne h] at ih ⊢
      by_cases hf : file.1 = name
      · have hskip : file.1 ≠ other := fun heq => h (heq.symm.trans hf)
        simpa [remove, content, Keyed.lookup, hf, hskip, Ne.symm h] using ih
      · by_cases ho : file.1 = other
        · simp [remove, content, Keyed.lookup, ho, h]
        · simpa [remove, content, Keyed.lookup, hf, ho] using ih

theorem mem_names_iff : name ∈ names files ↔ (content files name).isSome := by
  unfold names content Keyed.lookup
  rw [Option.isSome_map, List.find?_isSome]
  simp

theorem content_removeAll (gone : List ν) (files : List (ν × List UInt8)) (name : ν) :
    content (gone.foldl remove files) name = if name ∈ gone then none else content files name := by
  induction gone generalizing files with
  | nil => simp
  | cons first gone ih =>
    rw [List.foldl_cons, ih, content_remove]
    by_cases h : name = first
    · subst h
      simp
    · simp [h]

end Kit.Files
