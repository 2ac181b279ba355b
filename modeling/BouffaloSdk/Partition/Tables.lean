import BouffaloSdk.Partition.Partition

/-!
# Tables as finite maps

Storing an entry is an update of the map from types to entries, sealing a
table makes it valid without changing the map, and a valid table's own CRC
word lies behind the entries it protects.
-/

namespace BouffaloSdk.Partition
open Kit Kit.Word

variable {t : PtTableStuffConfig}

namespace PtTableStuffConfig

theorem getElem?_entries (t : PtTableStuffConfig) (i : Nat) :
    t.entries[i]? = if i < t.entryCnt then some (t.ptEntry i) else none := by
  unfold entries
  split
  · simp [*]
  · rw [List.getElem?_eq_none]
    simp only [List.length_map, List.length_range]
    omega

@[simp] theorem length_entries (t : PtTableStuffConfig) : t.entries.length = t.entryCnt := by
  simp [entries]

theorem entries_congr {t t' : PtTableStuffConfig} (hcnt : t'.entryCnt = t.entryCnt)
    (h : ∀ i < t.entryCnt, t'.ptEntry i = t.ptEntry i) : t'.entries = t.entries := by
  rw [entries, entries, hcnt]
  apply List.map_congr_left
  intro i hi
  exact h i (List.mem_range.mp hi)

/-! ## Words of the header -/

/-- A word stored in the header leaves the entries alone. -/
theorem ptEntry_putWord_header (t : PtTableStuffConfig) {off k : Nat} (v i : Nat)
    (h : off + k ≤ 16) : ptEntry (t.putWord off k v) i = t.ptEntry i := by
  apply Record.sub_congr
  apply Record.get_putWord_disjoint
  omega

/-- Storing behind the header leaves the header alone. -/
theorem get_putWord_body (t : PtTableStuffConfig) {off k : Nat} (v : Nat) {i n : Nat}
    (hoff : 16 ≤ off) (h : i + n ≤ 16) : (t.putWord off k v).get i n = t.get i n := by
  apply Record.get_putWord_disjoint
  omega

theorem get_setEntry_header (t : PtTableStuffConfig) (i : Nat) (e : PtTableEntryConfig)
    {off n : Nat} (h : off + n ≤ 16) : (t.setEntry i e).get off n = t.get off n := by
  apply Record.get_put_disjoint
  omega

theorem word_setEntry_header (t : PtTableStuffConfig) (i : Nat) (e : PtTableEntryConfig)
    {off n : Nat} (h : off + n ≤ 16) : (t.setEntry i e).word off n = t.word off n := by
  rw [Record.word, t.get_setEntry_header i e h]
  rfl

theorem entryCnt_setAge (t : PtTableStuffConfig) (v : Nat) : (t.setAge v).entryCnt = t.entryCnt :=
  t.word_putWord_disjoint (by decide)

theorem magicCode_setAge (t : PtTableStuffConfig) (v : Nat) :
    (t.setAge v).magicCode = t.magicCode :=
  t.word_putWord_disjoint (by decide)

theorem age_setAge (t : PtTableStuffConfig) {v : Nat} (h : v < 2 ^ 32) : (t.setAge v).age = v :=
  t.word_putWord_same (by decide) (by omega)

theorem entries_setAge (t : PtTableStuffConfig) (v : Nat) : (t.setAge v).entries = t.entries :=
  entries_congr (t.entryCnt_setAge v) fun i _ => t.ptEntry_putWord_header v i (by decide)

/-! ## Storing an entry -/

theorem ptEntry_setEntry (t : PtTableStuffConfig) (e : PtTableEntryConfig) {i : Nat} (j : Nat)
    (hi : i < 16) : (t.setEntry i e).ptEntry j = if j = i then e else t.ptEntry j := by
  split
  · subst j
    exact t.sub_put_same e (by omega)
  · apply Record.sub_congr
    apply Record.get_put_disjoint
    rw [e.length_eq]
    omega

theorem entries_setEntry (t : PtTableStuffConfig) (e : PtTableEntryConfig) {i : Nat}
    (hi : i < 16) : (t.setEntry i e).entries = t.entries.set i e := by
  have hcnt : (t.setEntry i e).entryCnt = t.entryCnt := t.word_setEntry_header i e (by decide)
  apply List.ext_getElem?
  intro j
  rw [getElem?_entries, List.getElem?_set, getElem?_entries, hcnt, t.ptEntry_setEntry e j hi,
    length_entries]
  by_cases hj : i = j
  · subst j
    simp
  · simp [hj, Ne.symm hj]

theorem entries_append (t : PtTableStuffConfig) (e : PtTableEntryConfig)
    (h : t.entryCnt < 16) :
    ((t.setEntry t.entryCnt e).setEntryCnt (t.entryCnt + 1)).entries = t.entries ++ [e] := by
  have hcnt : ((t.setEntry t.entryCnt e).setEntryCnt (t.entryCnt + 1)).entryCnt = t.entryCnt + 1 :=
    Record.word_putWord_same _ (by decide) (by omega)
  have hentry : ∀ j, ((t.setEntry t.entryCnt e).setEntryCnt (t.entryCnt + 1)).ptEntry j =
      if j = t.entryCnt then e else t.ptEntry j := by
    intro j
    rw [setEntryCnt, ptEntry_putWord_header _ _ _ (by decide), t.ptEntry_setEntry e j h]
  apply List.ext_getElem?
  intro j
  rw [getElem?_entries, hcnt, hentry, List.getElem?_append, getElem?_entries, length_entries]
  rcases Nat.lt_trichotomy j t.entryCnt with hj | hj | hj
  · rw [if_pos (by omega), if_neg (by omega), if_pos hj, if_pos hj]
  · subst hj
    simp
  · rw [if_neg (by omega), if_neg (by omega), List.getElem?_eq_none (by simp; omega)]

end PtTableStuffConfig

open PtTableStuffConfig

/-- What a successful store leaves: the header but for the count, and the
entries with the new one among them. -/
structure Stored (t : PtTableStuffConfig) (e : PtTableEntryConfig) (t' : PtTableStuffConfig) :
    Prop where
  magicCode : t'.magicCode = t.magicCode
  age : t'.age = t.age
  entryCnt : t'.entryCnt ≤ 16
  entries : t'.entries = Keyed.upsert PtTableEntryConfig.type t.entries e

theorem storeEntry_stored {t' : PtTableStuffConfig} {e : PtTableEntryConfig}
    (hcnt : t.entryCnt ≤ 16) (h : storeEntry t e = some t') : Stored t e t' := by
  have hi : t.entries.findIdx (fun x => x.type = e.type) ≤ t.entryCnt := by
    rw [← t.length_entries]
    exact List.findIdx_le_length
  unfold storeEntry at h
  simp only [] at h
  split at h
  · rename_i hnone
    split at h
    · rename_i hroom
      obtain ⟨⟩ := Option.some.inj h
      rw [hnone]
      refine ⟨?_, ?_, ?_, ?_⟩
      · rw [magicCode, setEntryCnt, Record.word_putWord_disjoint _ (by decide),
          t.word_setEntry_header _ e (by decide)]
        rfl
      · rw [PtTableStuffConfig.age, setEntryCnt, Record.word_putWord_disjoint _ (by decide),
          t.word_setEntry_header _ e (by decide)]
        rfl
      · rw [PtTableStuffConfig.entryCnt, setEntryCnt,
          Record.word_putWord_same _ (by decide) (by unfold ptEntryMax at hroom; omega)]
        exact hroom
      · rw [t.entries_append e hroom, Keyed.upsert]
        simp only [hnone, length_entries, if_true]
    · exact absurd h (by simp)
  · rename_i hsome
    obtain ⟨⟩ := Option.some.inj h
    refine ⟨t.word_setEntry_header _ e (by decide), t.word_setEntry_header _ e (by decide), ?_, ?_⟩
    · rw [PtTableStuffConfig.entryCnt, t.word_setEntry_header _ e (by decide)]
      exact hcnt
    · rw [t.entries_setEntry e (by omega), Keyed.upsert]
      simp only [length_entries, hsome, if_false]

/-! ## Sealing -/

theorem headerCrc_lt (t : PtTableStuffConfig) : t.headerCrc < 256 ^ 4 := bflbSoftCrc32_lt _

theorem bodyCrc_lt (t : PtTableStuffConfig) : t.bodyCrc < 256 ^ 4 := bflbSoftCrc32_lt _

theorem get_sealTable_header {off n : Nat} (h : off + n ≤ 12) :
    (sealTable t).get off n = t.get off n := by
  rw [sealTable, setEntriesCrc32, get_putWord_body _ _ (by omega) (by omega), setCrc32,
    Record.get_putWord_disjoint _ (by omega)]

theorem entryCnt_sealTable : (sealTable t).entryCnt = t.entryCnt := by
  rw [entryCnt, Record.word, get_sealTable_header (by decide)]
  rfl

theorem magicCode_sealTable : (sealTable t).magicCode = t.magicCode := by
  rw [magicCode, Record.word, get_sealTable_header (by decide)]
  rfl

theorem age_sealTable : (sealTable t).age = t.age := by
  rw [age, Record.word, get_sealTable_header (by decide)]
  rfl

theorem get_sealTable_body (t : PtTableStuffConfig) {off n : Nat} (hoff : 16 ≤ off)
    (h : off + n ≤ 16 + t.entriesLen) : (sealTable t).get off n = t.get off n := by
  have hlen : (t.setCrc32 t.headerCrc).entriesLen = t.entriesLen := by
    rw [entriesLen, entriesLen, entryCnt, setCrc32, Record.word_putWord_disjoint _ (by decide)]
    rfl
  rw [sealTable, setEntriesCrc32, Record.get_putWord_disjoint _ (by rw [hlen]; omega), setCrc32,
    Record.get_putWord_disjoint _ (by omega)]

theorem entries_sealTable : (sealTable t).entries = t.entries := by
  apply entries_congr entryCnt_sealTable
  intro i hi
  apply Record.sub_congr
  apply get_sealTable_body t (by omega)
  unfold entriesLen
  omega

/-- A sealed table is valid whatever its entries are. -/
theorem valid_sealTable (magic : t.magicCode = bflbPtMagicCode) (hcnt : t.entryCnt ≤ 16) :
    ptTableValid (sealTable t) = true := by
  have hlen : (sealTable t).entriesLen = t.entriesLen := by
    rw [entriesLen, entriesLen, entryCnt_sealTable]
  have hlen' : (t.setCrc32 t.headerCrc).entriesLen = t.entriesLen := by
    rw [entriesLen, entriesLen, entryCnt, setCrc32, Record.word_putWord_disjoint _ (by decide)]
    rfl
  have hheader : (sealTable t).crc32 = (sealTable t).headerCrc := by
    rw [headerCrc, get_sealTable_header (by decide), crc32, sealTable, setEntriesCrc32,
      Record.word_putWord_disjoint _ (by omega), setCrc32,
      Record.word_putWord_same _ (by decide) (headerCrc_lt t)]
    rfl
  have hbody : (sealTable t).entriesCrc32 = (sealTable t).bodyCrc := by
    rw [bodyCrc, hlen, get_sealTable_body t (Nat.le_refl _) (Nat.le_refl _), entriesCrc32, hlen,
      sealTable, setEntriesCrc32, hlen',
      Record.word_putWord_same _ (by unfold entriesLen; omega) (bodyCrc_lt _), bodyCrc, hlen',
      setCrc32, Record.get_putWord_disjoint _ (by omega)]
  unfold ptTableValid
  rw [magicCode_sealTable, entryCnt_sealTable, if_pos magic, hheader, hbody]
  simp only [ne_eq, not_true_eq_false, if_false]
  rw [if_neg (by unfold ptEntryMax; omega)]

theorem magicCode_of_valid (h : ptTableValid t = true) : t.magicCode = bflbPtMagicCode := by
  unfold ptTableValid at h
  split at h
  · assumption
  · exact absurd h (by simp)

theorem entryCnt_of_valid (h : ptTableValid t = true) : t.entryCnt ≤ 16 := by
  unfold ptTableValid at h
  rw [if_pos (magicCode_of_valid h)] at h
  split at h
  · exact absurd h (by simp)
  · rename_i hle
    exact Nat.le_of_not_lt hle

end BouffaloSdk.Partition
