import BtDht.Data.Codewords
import BtDht.MySqliteClass.KeyListing
import BtDht.MySqliteClass.Tiling

/-!
# BtDht.MySqliteClass.Search

What a search finds in the library.  Three parts of the program meet here: the
tokenizer that reads names and keys alike, the index that `Insert` fills, and
the query `m_select_from_key`.

A name need not be valid UTF-8 to be indexed; it is enough that the scanner
gets through it.  On all such texts a phrase matches exactly where its bytes
stand in the name, up to the case of ASCII letters (`phraseMatches_iff_occurs`),
because a byte that begins a character cannot be taken for the middle of one.
-/

namespace BtDht

namespace MySqliteTokenizers

open Fts5 Codewords

/-! ## bytes up to the case of ASCII letters -/

/-- A text with its ASCII letters in upper case. -/
def upper (s : Bytes) : Bytes := s.map toupper

theorem toupper_toupper (b : UInt8) : toupper (toupper b) = toupper b := by
  have h : ∀ n : Fin 256, toupper (toupper (UInt8.ofFin n)) = toupper (UInt8.ofFin n) := by
    decide +kernel
  exact h b.toFin

theorem upper_upper (s : Bytes) : upper (upper s) = upper s := by
  rw [upper, upper, List.map_map]
  exact List.map_congr_left fun b _ => toupper_toupper b

theorem charSize_toupper (b : UInt8) : charSize (toupper b) = charSize b := by
  have h : ∀ n : Fin 256, charSize (toupper (UInt8.ofFin n)) = charSize (UInt8.ofFin n) := by
    decide +kernel
  exact h b.toFin

/-- Only letters change, and the bytes of longer characters are beyond them. -/
theorem toupper_of_le {b : UInt8} (h : 0x80 ≤ b.toNat) : toupper b = b := by
  rw [toupper, if_neg]
  rw [UInt8.le_iff_toNat_le, UInt8.le_iff_toNat_le]
  show ¬ (97 ≤ b.toNat ∧ b.toNat ≤ 122)
  omega

theorem IsCharacter.isWord {c : Bytes} (h : IsCharacter c) : IsWord charSize c := by
  cases c with
  | nil => exact absurd h.length_pos (by simp)
  | cons b l =>
      refine .mk (by simpa using h.size) fun b' hb' => ?_
      have hcont := (continuation_iff b').mp (h.continuation b' (by simpa using hb'))
      rw [charSize_eq, if_neg (by omega), if_pos hcont.2]

/-- Longer characters have no letters. -/
theorem IsCharacter.upper_eq_self {c : Bytes} (h : IsCharacter c) (hne : c.length ≠ 1) :
    upper c = c := by
  cases c with
  | nil => rfl
  | cons b l =>
      have hall : ∀ b' ∈ b :: l, toupper b' = b' := by
        intro b' hb'
        rcases List.mem_cons.mp hb' with rfl | hb'
        · have hsize : charSize b' = some (l.length + 1) := by simpa using h.size
          by_contra hlow
          have hlt : b'.toNat < 0x80 := by
            by_contra hge
            exact hlow (toupper_of_le (by omega))
          rw [charSize_eq, if_pos hlt] at hsize
          exact hne (by simpa using hsize.symm)
        · have hcont := (continuation_iff b').mp (h.continuation b' (by simpa using hb'))
          exact toupper_of_le hcont.1
      exact (List.map_congr_left hall).trans (List.map_id _)

/-- A character stays one. -/
theorem IsCharacter.upper {c : Bytes} (h : IsCharacter c) : IsCharacter (upper c) := by
  by_cases hone : c.length = 1
  · obtain ⟨b, rfl⟩ := List.length_eq_one_iff.mp hone
    have hsize : charSize b = some 1 := by simpa using h.size
    exact ⟨by simpa [MySqliteTokenizers.upper, charSize_toupper] using hsize,
      by simp [MySqliteTokenizers.upper]⟩
  · rwa [h.upper_eq_self hone]

/-! ## the terms of a character -/

/-- The terms of a character's position. -/
def characterTerms (c : Bytes) : List Bytes := (withUpper ⟨0, c, 0, 0⟩).map Token.token

/-- Positions are characters, whether they are valid UTF-8 or not. -/
theorem split_rowTokens_characters (offset : Nat) (chars : List Bytes) :
    split (rowTokens offset chars) = ([], chars.map characterTerms) := by
  induction chars generalizing offset with
  | nil => rfl
  | cons c chars ih =>
      rw [rowTokens, characterTokens_eq, List.map_cons, characterTerms]
      cases c with
      | nil => simp [withUpper, split, Token.colocated, tokenColocated, ih]
      | cons b l =>
          cases l with
          | nil =>
              by_cases hlow : 'a'.toUInt8 ≤ b ∧ b ≤ 'z'.toUInt8
              · simp [withUpper, hlow, split, Token.colocated, tokenColocated, ih]
              · simp [withUpper, hlow, split, Token.colocated, tokenColocated, ih]
          | cons b' l => simp [withUpper, split, Token.colocated, tokenColocated, ih]

theorem positions_rowTokens_characters (offset : Nat) (chars : List Bytes) :
    positions (rowTokens offset chars) = chars.map characterTerms := by
  simp only [positions, split_rowTokens_characters]

theorem mem_characterTerms {c : Bytes} (h : IsCharacter c) {term : Bytes} :
    term ∈ characterTerms c ↔ term = c ∨ term = upper c := by
  by_cases hone : c.length = 1
  · obtain ⟨b, rfl⟩ := List.length_eq_one_iff.mp hone
    by_cases hlow : 'a'.toUInt8 ≤ b ∧ b ≤ 'z'.toUInt8
    · simp [characterTerms, withUpper, hlow, upper]
    · have hsame : toupper b = b := if_neg hlow
      simp [characterTerms, withUpper, hlow, upper, hsame]
  · rw [h.upper_eq_self hone, or_self]
    cases c with
    | nil => simp [characterTerms, withUpper]
    | cons b l =>
        cases l with
        | nil => exact absurd rfl hone
        | cons b' l => simp [characterTerms, withUpper]

/-- Two characters share a term exactly when they are equal up to the case of
ASCII letters. -/
theorem share_characterTerms_iff {a b : Bytes} (ha : IsCharacter a) (hb : IsCharacter b) :
    (∃ term, term ∈ characterTerms a ∧ term ∈ characterTerms b) ↔ upper a = upper b := by
  simp only [mem_characterTerms ha, mem_characterTerms hb]
  constructor
  · rintro ⟨term, rfl | rfl, h | h⟩
    · rw [h]
    · rw [h, upper_upper]
    · rw [← h, upper_upper]
    · exact h
  · intro h
    exact ⟨upper a, .inr rfl, .inr h⟩

/-! ## phrases are found as bytes -/

theorem Scannable.exists_tokens {s : Bytes} (h : Scannable s) : ∃ ts, tokens s = .ok ts := by
  obtain ⟨chars, hchars, rfl⟩ := h
  exact ⟨_, tokens_flatten hchars⟩

/-- A phrase is found where its characters are, up to the case of letters. -/
theorem phraseMatches_rowTokens_iff {d q : List Bytes} (hd : ∀ c ∈ d, IsCharacter c)
    (hq : ∀ c ∈ q, IsCharacter c) :
    PhraseMatches (rowTokens 0 q) (rowTokens 0 d) ↔ q.map upper <:+: d.map upper := by
  have hmatch := matches_map_iff
    (R := fun a b => ∃ term, term ∈ characterTerms a ∧ term ∈ characterTerms b)
    (fun _ _ => Iff.rfl) (positions_rowTokens_characters 0 q) (positions_rowTokens_characters 0 d)
  rw [hmatch, List.infix_iff_getElem?]
  constructor
  · intro h
    obtain ⟨i, h⟩ := h
    cases hlen : q.length with
    | zero => exact ⟨0, by simp [hlen], by simp [hlen]⟩
    | succ n =>
        obtain ⟨hin, -⟩ := h n (by omega)
        refine ⟨i, by simp; omega, fun j hj => ?_⟩
        rw [List.length_map] at hj
        obtain ⟨hij, hshare⟩ := h j hj
        rw [share_characterTerms_iff (hq _ (List.getElem_mem hj)) (hd _ (List.getElem_mem hij))]
          at hshare
        simp [Nat.add_comm j i, hij, hshare]
  · intro h
    obtain ⟨k, hle, h⟩ := h
    rw [List.length_map, List.length_map] at hle
    refine ⟨k, fun j hj => ?_⟩
    have hkj : k + j < d.length := by omega
    have heq := h j (by simpa using hj)
    rw [Nat.add_comm j k, List.getElem?_eq_getElem (by simpa using hkj), Option.some_inj,
      List.getElem_map, List.getElem_map] at heq
    exact ⟨hkj, (share_characterTerms_iff (hq _ (List.getElem_mem hj))
      (hd _ (List.getElem_mem hkj))).mpr heq.symm⟩

/-- Characters are found where their bytes are. -/
theorem upper_flatten_infix_iff {d q : List Bytes} (hd : ∀ c ∈ d, IsCharacter c)
    (hq : ∀ c ∈ q, IsCharacter c) :
    upper q.flatten <:+: upper d.flatten ↔ q.map upper <:+: d.map upper := by
  have hword : ∀ {chars : List Bytes}, (∀ c ∈ chars, IsCharacter c) →
      ∀ w ∈ chars.map upper, IsWord charSize w := by
    intro chars hchars w hw
    obtain ⟨c, hc, rfl⟩ := List.mem_map.mp hw
    exact (hchars c hc).upper.isWord
  rw [upper, upper, List.map_flatten, List.map_flatten]
  exact flatten_infix_flatten_iff (hword hq) (hword hd)

/-- **Search is substring search on bytes.**  Whenever the tokenizer gets
through a key and a name, be they valid UTF-8 or not, the phrase matches the
name exactly if the bytes of the key stand somewhere in the name, up to the
case of ASCII letters. -/
theorem phraseMatches_iff_occurs {d q : Bytes} {document phrase : List Token}
    (hd : tokens d = .ok document) (hq : tokens q = .ok phrase) :
    PhraseMatches phrase document ↔ upper q <:+: upper d := by
  obtain ⟨chars, hchars, rfl⟩ := (isOk_tokens_iff d).mp (by rw [hd]; rfl)
  obtain ⟨chars', hchars', rfl⟩ := (isOk_tokens_iff q).mp (by rw [hq]; rfl)
  rw [tokens_flatten hchars] at hd
  rw [tokens_flatten hchars'] at hq
  rw [← Except.ok.inj hd, ← Except.ok.inj hq, phraseMatches_rowTokens_iff hchars hchars',
    upper_flatten_infix_iff hchars hchars']

end MySqliteTokenizers

/-! ## what the query by key lists -/

namespace Database

open MySqliteTokenizers Fts5 Relational

/-- What `MATCH` finds when its argument is the one phrase `key`: the rows
whose indexed text the phrase matches, each of them once.  A phrase without a
token is none. -/
structure Matches {ρ : Type*} (db : Database) (key : Bytes) (textquery : List (TextRow ρ)) :
    Prop where
  phrase_ne_nil : key ≠ []
  distinct : (textquery.map TextRow.rowid).Nodup
  found : ∀ rowid, rowid ∈ textquery.map TextRow.rowid ↔
    ∃ row ∈ db.fulltextTable, row.rowid = rowid ∧ ∃ document phrase,
      tokens row.text = .ok document ∧ tokens key = .ok phrase ∧ PhraseMatches phrase document

/-- The key stands in the name of the torrent or of one of its files, up to the
case of ASCII letters. -/
def HasName (key : Bytes) (data : TorrentData) : Prop :=
  ∃ entry ∈ data.entries, upper key <:+: upper entry.1

/-- The tokenizer has got through everything that is indexed. -/
def Indexed (db : Database) : Prop := ∀ row ∈ db.fulltextTable, Scannable row.text

/-- A torrent whose names the tokenizer gets through leaves it so. -/
theorem Indexed.addTorrent {db : Database} {data : TorrentData} (hi : db.Indexed)
    (htext : ∀ file ∈ data.entries, (tokens file.1).isOk) : (db.addTorrent data).Indexed := by
  intro row hrow
  rw [addTorrent_eq] at hrow
  rcases List.mem_append.mp hrow with hrow | hrow
  · exact hi row hrow
  · obtain ⟨ft, hft, rfl⟩ := List.mem_map.mp hrow
    have hentry : ft.entry ∈ data.entries := by
      rw [← entry_fileRows _ _ data.entries]
      exact List.mem_map_of_mem hft
    exact (isOk_tokens_iff _).mp (htext _ hentry)

section

variable {ρ : Type*} {stored : List TorrentData} {db : Database} {key : Bytes}
  {textquery : List (TextRow ρ)}

/-- A file is found by its name. -/
theorem Holds.mem_matches_iff (h : Holds stored db) (hi : db.Indexed) (hkey : Scannable key)
    (hm : db.Matches key textquery) {ft : FileRow} (hft : ft ∈ db.fileTable) :
    ft.id ∈ textquery.map TextRow.rowid ↔ upper key <:+: upper ft.name := by
  rw [hm.found]
  constructor
  · intro hfound
    obtain ⟨row, hrow, hid, document, phrase, hd, hq, hmatch⟩ := hfound
    rw [h.index] at hrow
    obtain ⟨ft', hft', rfl⟩ := List.mem_map.mp hrow
    obtain rfl : ft' = ft := List.inj_on_of_nodup_map h.consistent.fileIds hft' hft hid
    exact (phraseMatches_iff_occurs hd hq).mp hmatch
  · intro hin
    have hrow : indexRow ft ∈ db.fulltextTable := by
      rw [h.index]
      exact List.mem_map_of_mem hft
    obtain ⟨document, hd⟩ := (hi _ hrow).exists_tokens
    obtain ⟨phrase, hq⟩ := hkey.exists_tokens
    exact ⟨indexRow ft, hrow, rfl, document, phrase, hd, hq, (phraseMatches_iff_occurs hd hq).mpr hin⟩

/-- A torrent has a row that matches exactly if it has the key in a name. -/
theorem Holds.nonempty_matchingRanks_iff (h : Holds stored db) (hi : db.Indexed)
    (hkey : Scannable key) (hm : db.Matches key textquery) {row : HashRow} {data : TorrentData}
    (hfiles : (db.filesOf row.id).map FileRow.entry = data.entries) :
    (db.matchingRanks textquery row.id).Nonempty ↔ HasName key data := by
  constructor
  · intro hne
    obtain ⟨-, ft, hft, tq, htq, hid, -⟩ := hne
    have hin : ft.id ∈ textquery.map TextRow.rowid := hid ▸ List.mem_map_of_mem htq
    have hname := (h.mem_matches_iff hi hkey hm (List.mem_filter.mp hft).1).mp hin
    exact ⟨ft.entry, hfiles ▸ List.mem_map_of_mem hft, hname⟩
  · intro hname
    obtain ⟨entry, hentry, hin⟩ := hname
    rw [← hfiles] at hentry
    obtain ⟨ft, hft, rfl⟩ := List.mem_map.mp hentry
    have hfound := (h.mem_matches_iff hi hkey hm (List.mem_filter.mp hft).1).mpr hin
    obtain ⟨tq, htq, hid⟩ := List.mem_map.mp hfound
    exact ⟨tq.rank, ft, hft, tq, htq, hid, rfl⟩

/-- `MATCH` has an answer for every phrase. -/
theorem Holds.exists_matches (h : Holds stored db) (hne : key ≠ []) (rank : ρ) :
    ∃ textquery : List (TextRow ρ), db.Matches key textquery := by
  classical
  let rows := db.fulltextTable.filter fun row => ∃ document phrase,
    tokens row.text = .ok document ∧ tokens key = .ok phrase ∧ PhraseMatches phrase document
  have hrowids : (rows.map fun row => TextRow.mk row.rowid rank).map TextRow.rowid =
      rows.map FulltextRow.rowid := by
    rw [List.map_map]
    rfl
  have hnd : (db.fulltextTable.map FulltextRow.rowid).Nodup := by
    rw [h.consistent.rowids]
    exact h.consistent.fileIds
  refine ⟨rows.map fun row => ⟨row.rowid, rank⟩, hne, ?_, fun rowid => ?_⟩
  · rw [hrowids]
    exact hnd.sublist (List.filter_sublist.map _)
  · rw [hrowids, List.mem_map]
    constructor
    · intro hrow
      obtain ⟨row, hrow, hid⟩ := hrow
      obtain ⟨hin, hmatch⟩ := List.mem_filter.mp hrow
      exact ⟨row, hin, hid, of_decide_eq_true hmatch⟩
    · intro hrow
      obtain ⟨row, hin, hid, hmatch⟩ := hrow
      exact ⟨row, List.mem_filter.mpr ⟨hin, decide_eq_true hmatch⟩, hid⟩

/-- The listing of a search: the torrents that have the key in a name. -/
theorem Holds.search [LinearOrder ρ] (h : Holds stored db) (hi : db.Indexed) (hkey : Scannable key)
    (hm : db.Matches key textquery) {fileGroups : List (RowGroup (FileRow × TextRow ρ))}
    {groups : List (RowGroup (HashRow × FullFileRow ρ))}
    (hl : db.IsKeyListing textquery fileGroups groups) :
    ∃ found : List TorrentData, (found.map TorrentData.hash).Nodup ∧
      (∀ data, data ∈ found ↔ data ∈ stored ∧ HasName key data) ∧
      List.Forall₂ (fun g data => Shows (keyObject g) data) groups found := by
  have hpartner : ∀ g ∈ groups, ∃ data, (data ∈ stored ∧ HasName key data) ∧
      g.bare.1.hashValue = data.hash ∧ Shows (keyObject g) data := by
    intro g hg
    obtain ⟨hrow, hne⟩ := (h.mem_keyBare hl g.bare.1).mp (List.mem_map_of_mem hg)
    obtain ⟨data, hdata, hhash, hfiles⟩ := exists_mem_of_forall₂ h.torrents hrow
    have hshows := h.showsMatching hl hg
    exact ⟨data, ⟨hdata, (h.nonempty_matchingRanks_iff hi hkey hm hfiles).mp hne⟩, hhash,
      hshows.hashValue_eq.trans hhash, hfiles ▸ hshows.files_perm⟩
  obtain ⟨found, hfound⟩ := exists_forall₂ hpartner
  have hhashes : groups.map (fun g => g.bare.1.hashValue) = found.map TorrentData.hash := by
    have heq := List.forall₂_map_left_iff.mpr
      (List.forall₂_map_right_iff.mpr (hfound.imp fun _ _ hr => hr.2.1))
    rwa [List.forall₂_eq_eq_eq] at heq
  refine ⟨found, hhashes ▸ hl.grouped.distinct, fun data => ⟨fun hdata => ?_, fun hdata => ?_⟩,
    hfound.imp fun _ _ hr => hr.2.2⟩
  · obtain ⟨g, -, hr⟩ := exists_mem_of_forall₂ hfound.flip hdata
    exact hr.1
  · obtain ⟨row, hrow, hhash, hfiles⟩ := exists_mem_of_forall₂ h.torrents.flip hdata.1
    have hne := (h.nonempty_matchingRanks_iff hi hkey hm hfiles).mpr hdata.2
    obtain ⟨g, hg, rfl⟩ := List.mem_map.mp ((h.mem_keyBare hl row).mpr ⟨hrow, hne⟩)
    obtain ⟨data', hdata', hr⟩ := exists_mem_of_forall₂ hfound hg
    obtain rfl : data' = data :=
      List.inj_on_of_nodup_map h.distinct hr.1.1 hdata.1 (hr.2.1.symm.trans hhash)
    exact hdata'

end

end Database

/-! ## searches over whole runs -/

namespace MyDataInsertClass

open Database Sqlite Relational MySqliteTokenizers

variable {codes : StmtName → ResultCode} {hist : List InsertCall} {r r' : Run}

/-- A call indexes only what the tokenizer gets through. -/
theorem Ready.step_indexed {call : InsertCall} (h : Ready r) (hi : r.crawler.mDb.db.Indexed)
    (hs : (system codes).step r call = .ok r') : r'.crawler.mDb.db.Indexed := by
  simp only [system] at hs
  split at hs
  · next c hrun =>
      obtain rfl := Except.ok.inj hs
      have hret : InsertReturns call.data (r.crawler.facing call) true c :=
        insert_returns h.quiet h.closed hrun
      obtain ⟨-, -, ⟨-, hdb, -, htext⟩ | ⟨hf, -⟩⟩ := hret
      · rw [hdb]
        exact Indexed.addTorrent hi htext
      · cases hf
  · next c hrun =>
      obtain rfl := Except.ok.inj hs
      have hret : InsertReturns call.data (r.crawler.facing call) false c :=
        insert_returns h.quiet h.closed hrun
      obtain ⟨-, -, ⟨hf, -⟩ | ⟨-, hdb, -⟩⟩ := hret
      · cases hf
      · rw [hdb]
        exact hi
  · cases hs

theorem indexed_of_trace (ht : (system codes).Trace hist r) : r.crawler.mDb.db.Indexed := by
  refine ht.history (fun _ r => r.crawler.mDb.db.Indexed) (fun row hrow => ?_) ?_
  · exact absurd hrow List.not_mem_nil
  · exact fun h r call r' ht hi _ hs => (ready_of_trace ht).step_indexed hi hs

/-- **What a search finds.**  After any calls of `Insert`, a search for a key
that is one phrase, and that the tokenizer gets through, lists exactly the
inserted torrents that have the bytes of the key in their own name or in that of
a file, up to the case of ASCII letters: each of them once, and with all of its
files.  It does not matter how the matches are ranked and which rows the groups
take their bare columns from. -/
theorem search_finds_names (ht : (system codes).Trace hist r) {key : Bytes}
    (hkey : Scannable key) {ρ : Type*} [LinearOrder ρ] {textquery : List (TextRow ρ)}
    (hm : r.crawler.mDb.db.Matches key textquery) :
    (∃ fileGroups groups, r.crawler.mDb.db.IsKeyListing textquery fileGroups groups) ∧
      ∀ fileGroups groups, r.crawler.mDb.db.IsKeyListing textquery fileGroups groups →
        ∃ found : List TorrentData, (found.map TorrentData.hash).Nodup ∧
          (∀ data, data ∈ found ↔ data ∈ r.inserted ∧ HasName key data) ∧
          List.Forall₂ Shows (groups.map keyObject) found := by
  refine ⟨exists_keyListing _ _, fun fileGroups groups hl => ?_⟩
  obtain ⟨found, hnd, hmem, hshows⟩ :=
    (ready_of_trace ht).holds.search (indexed_of_trace ht) hkey hm hl
  exact ⟨found, hnd, hmem, List.forall₂_map_left_iff.mpr hshows⟩

/-- The torrent `a` is found as `A`. -/
theorem search_finds_oneFile :
    ∃ (c : Crawler) (textquery : List (TextRow Int)), c.mDb.db.Matches [65] textquery ∧
      ∀ fileGroups groups, c.mDb.db.IsKeyListing textquery fileGroups groups →
        ∃ found : List TorrentData, (found.map TorrentData.hash).Nodup ∧
          (∀ data, data ∈ found ↔ data ∈ [oneFile] ∧ HasName [65] data) ∧
          List.Forall₂ Shows (groups.map keyObject) found := by
  obtain ⟨c, ht⟩ := trace_oneFile
  obtain ⟨textquery, hm⟩ := (ready_of_trace ht).holds.exists_matches (List.cons_ne_nil 65 []) (0 : Int)
  have hkey : Scannable [65] := ⟨[[65]], by simpa using ⟨by decide, by simp⟩, rfl⟩
  exact ⟨c, textquery, hm, (search_finds_names ht hkey hm).2⟩

example : HasName [65] oneFile := ⟨([97], 5), by decide, by decide⟩

end MyDataInsertClass

end BtDht
