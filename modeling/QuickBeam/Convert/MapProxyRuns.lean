import QuickBeam.Convert.MapProxy
import QuickBeam.Text.Utf8Steps

/-!
# When a map proxy behaves like an ordinary object

The proxy simulates the ordinary object: under a name that it finds, both have the same own property,
and the names of the object are those of the map followed by the written ones.  Reading needs no more.
A write keeps the relation when it goes into the overrides as it goes into the object and lets the
overrides inherit nothing that was not there; a deletion when there is nothing to delete.
-/

namespace QuickBeam.Convert.MapProxy

open QuickBeam.Lib QuickBeam.Lib.Javascript

variable {T V : Type} {engine : Engine T V}

/-! ### Atoms of ASCII characters -/

variable {c : Char}

theorem charOf_asciiByte (h : c.toNat < 128) : Char.ofNat (UInt8.ofNat c.toNat).toNat = c := by
  have hbyte : (UInt8.ofNat c.toNat).toNat = c.toNat := by
    rw [UInt8.toNat_ofNat']
    exact Nat.mod_eq_of_lt (by omega)
  rw [hbyte, Char.ofNat_toNat]

theorem utf8EncodeChar_ascii (h : c.toNat < 128) :
    String.utf8EncodeChar c = [UInt8.ofNat c.toNat] := by
  have hle : c.val.toNat ≤ 127 := Nat.le_of_lt_succ h
  rw [String.utf8EncodeChar, if_pos hle]
  rfl

variable {name : List Char}

theorem flatMap_utf8EncodeChar (h : ∀ c ∈ name, c.toNat < 128) :
    name.flatMap String.utf8EncodeChar = name.map fun c => UInt8.ofNat c.toNat := by
  induction name with
  | nil => rfl
  | cons c name ih =>
    rw [List.flatMap_cons, utf8EncodeChar_ascii (h c (List.mem_cons_self ..)),
      ih fun d hd => h d (List.mem_cons_of_mem _ hd), List.map_cons, List.singleton_append]

theorem toLatin1_ascii (h : ∀ c ∈ name, c.toNat < 128) :
    toLatin1 name = name.map fun c => UInt8.ofNat c.toNat := by
  rw [toLatin1, if_pos]
  refine List.all_eq_true.2 fun c hc => decide_eq_true ?_
  have hlt := h c hc
  omega

theorem fromLatin1_ascii (h : ∀ c ∈ name, c.toNat < 128) :
    fromLatin1 (name.map fun c => UInt8.ofNat c.toNat) = name := by
  rw [fromLatin1, List.map_map]
  exact (List.map_congr_left fun c hc => charOf_asciiByte (h c hc)).trans (List.map_id name)

theorem bytes_fromLatin1 (bytes : List UInt8) :
    (fromLatin1 bytes).map (fun c => UInt8.ofNat c.toNat) = bytes := by
  rw [fromLatin1, List.map_map]
  refine (List.map_congr_left fun b _ => ?_).trans (List.map_id bytes)
  have hvalid : b.toNat.isValidChar := .inl (Nat.lt_trans b.toNat_lt (by decide))
  have hchar : (Char.ofNat b.toNat).toNat = b.toNat := by
    rw [Char.ofNat, dif_pos hvalid]
    rfl
  show UInt8.ofNat (Char.ofNat b.toNat).toNat = b
  rw [hchar, UInt8.ofNat_toNat]

theorem validateUtf8_ascii {bytes : List UInt8} (h : ∀ b ∈ bytes, b < 0x80) :
    Text.validateUtf8 bytes = true := by
  induction bytes with
  | nil => rw [Text.validateUtf8]
  | cons b bytes ih =>
    rw [Text.validateUtf8, Text.branch_ascii bytes (h b (List.mem_cons_self ..))]
    exact ih fun c hc => h c (List.mem_cons_of_mem _ hc)

theorem validateUtf8_asciiBytes (h : ∀ c ∈ name, c.toNat < 128) :
    Text.validateUtf8 (name.map fun c => UInt8.ofNat c.toNat) = true := by
  refine validateUtf8_ascii fun b hb => ?_
  obtain ⟨c, hc, rfl⟩ := List.mem_map.1 hb
  have hlt := h c hc
  rw [UInt8.lt_iff_toNat_lt, UInt8.toNat_ofNat', Nat.mod_eq_of_lt (by omega)]
  exact hlt

/-! ### Keys and their names -/

section Keys

variable (htext : ∀ bytes, Text.validateUtf8 bytes = true → engine.text bytes = bytes)
include htext

theorem nameOf_eq_iff {key : MapKey} (h : Readable key) (name : List UInt8) :
    nameOf engine key = .string name ↔ key = .binary name ∨ key = .atom (fromLatin1 name) := by
  cases key with
  | binary bytes =>
    rw [nameOf, htext bytes h]
    constructor
    · intro heq
      exact .inl (congrArg MapKey.binary (PropertyKey.string.inj heq))
    · rintro (heq | heq)
      · exact congrArg PropertyKey.string (MapKey.binary.inj heq)
      · cases heq
  | atom chars =>
    rw [nameOf, flatMap_utf8EncodeChar h]
    constructor
    · intro heq
      rw [← PropertyKey.string.inj heq, fromLatin1_ascii h]
      exact .inr rfl
    · rintro (heq | heq)
      · cases heq
      · have hchars : chars = fromLatin1 name := MapKey.atom.inj heq
        rw [hchars, bytes_fromLatin1]

theorem lookupKey_eq_some_iff {data : BeamProxyData T V} {name : List UInt8}
    (h : NamesOneKey engine data.term name) (term : T) :
    data.lookupKey name = some term ↔
      ∃ key, (key, term) ∈ data.term.entries ∧ nameOf engine key = .string name := by
  have hname : ∀ key ∈ data.term.entries.map Prod.fst,
      key = .binary name ∨ key = .atom (fromLatin1 name) → nameOf engine key = .string name :=
    fun key hkey hfound => (nameOf_eq_iff htext (h.1 key hkey (.inr hfound)) name).2 hfound
  have hfind : ∀ key ∈ data.term.entries.map Prod.fst, nameOf engine key = .string name →
      key = .binary name ∨ key = .atom (fromLatin1 name) :=
    fun key hkey hnamed => (nameOf_eq_iff htext (h.1 key hkey (.inl hnamed)) name).1 hnamed
  rw [BeamProxyData.lookupKey]
  cases hbinary : data.term.entries.lookup (.binary name) with
  | some found =>
    have hmem := mem_of_lookup hbinary
    rw [Option.some_or]
    constructor
    · intro heq
      rw [← Option.some.inj heq]
      exact ⟨_, hmem, hname _ (List.mem_map_of_mem hmem) (.inl rfl)⟩
    · rintro ⟨key, hkey, hnamed⟩
      have hsame : key = .binary name := h.2 _ (List.mem_map_of_mem hkey) _
        (List.mem_map_of_mem hmem) hnamed (hname _ (List.mem_map_of_mem hmem) (.inl rfl))
      rw [← hbinary]
      exact lookup_of_mem data.term.nodup (hsame ▸ hkey)
  | none =>
    rw [Option.none_or]
    constructor
    · intro heq
      have hmem := mem_of_lookup heq
      exact ⟨_, hmem, hname _ (List.mem_map_of_mem hmem) (.inr rfl)⟩
    · rintro ⟨key, hkey, hnamed⟩
      rcases hfind key (List.mem_map_of_mem hkey) hnamed with rfl | rfl
      · have hsome := lookup_of_mem data.term.nodup hkey
        rw [hbinary] at hsome
        cases hsome
      · exact lookup_of_mem data.term.nodup hkey

end Keys

/-! ### The ordinary object at the start -/

variable {key : PropertyKey} {term : BeamMap T}

theorem plain_ordinaryObject {property : Property V}
    (h : (ordinaryObject engine term).getOwn key = some property) :
    ∃ entry ∈ term.entries, nameOf engine entry.1 = key ∧
      Property.data (engine.convertValue entry.2) true true true = property := by
  rcases lookup_foldl_putEntry_cases _ _ term.entries [] h with hnone | hentry
  · cases hnone
  · exact hentry

theorem getOwn_ordinaryObject
    (htext : ∀ bytes, Text.validateUtf8 bytes = true → engine.text bytes = bytes)
    {name : List UInt8} (h : NamesOneKey engine term name) :
    (ordinaryObject engine term).getOwn (.string name) =
      ((⟨term, none⟩ : BeamProxyData T V).lookupKey name).map fun found =>
        .data (engine.convertValue found) true true true := by
  have hlookup : ∀ found, (⟨term, none⟩ : BeamProxyData T V).lookupKey name = some found ↔
      ∃ key, (key, found) ∈ term.entries ∧ nameOf engine key = .string name :=
    lookupKey_eq_some_iff htext h
  cases hfound : (⟨term, none⟩ : BeamProxyData T V).lookupKey name with
  | some found =>
    obtain ⟨key, hkey, hname⟩ := (hlookup found).1 hfound
    refine lookup_foldl_putEntry _ _ term.entries [] (fun entry hentry hnamed => ?_)
      (.inr ⟨(key, found), hkey, hname⟩)
    -- the other entries under this name are this one
    have hsame : entry.1 = key := h.2 _ (List.mem_map_of_mem hentry) _
      (List.mem_map_of_mem (f := Prod.fst) hkey) hnamed hname
    have hentry' : entry = (key, found) := List.inj_on_of_nodup_map term.nodup hentry hkey hsame
    rw [hentry']
  | none =>
    cases hown : (ordinaryObject engine term).getOwn (.string name) with
    | none => rfl
    | some property =>
      obtain ⟨entry, hentry, hname, -⟩ := plain_ordinaryObject hown
      rw [(hlookup entry.2).2 ⟨entry.1, hentry, hname⟩] at hfound
      cases hfound

theorem getOwn_ordinaryObject_symbol (term : BeamMap T) (id : ℕ) (description : List UInt8) :
    (ordinaryObject engine term).getOwn (.symbol id description) = none := by
  cases hown : (ordinaryObject engine term).getOwn (.symbol id description) with
  | none => rfl
  | some property =>
    obtain ⟨entry, -, hname, -⟩ := plain_ordinaryObject hown
    cases hkey : entry.1 with
    | binary bytes =>
      rw [hkey] at hname
      cases hname
    | atom chars =>
      rw [hkey] at hname
      cases hname

theorem names_ordinaryObject (h : (mapNames engine term).Nodup) :
    (ordinaryObject engine term).names = mapNames engine term := by
  rw [OrdinaryObject.names, ordinaryObject, foldl_putEntry _ _ term.entries [] h, List.nil_append,
    List.map_map]
  rfl

/-! ### The simulation -/

def IsPlain (property : Property V) : Prop := ∃ value, property = .data value true true true

def overrideNames (data : BeamProxyData T V) : List PropertyKey :=
  match data.overrides with
  | some overrides => overrides.names
  | none => []

def addedNames (engine : Engine T V) (data : BeamProxyData T V) : List PropertyKey :=
  (overrideNames data).filter fun name => name ∉ mapNames engine data.term

structure Simulates (engine : Engine T V) (data : BeamProxyData T V)
    (object : OrdinaryObject V) : Prop where
  prototype : object.prototype = engine.objectPrototype
  plain : ∀ key property, object.getOwn key = some property → IsPlain property
  own : ∀ key, FindsOwn engine data key → object.getOwn key = data.getOwnProperty engine key
  names : (mapNames engine data.term).Nodup →
    object.names = mapNames engine data.term ++ addedNames engine data
  overridesPrototype : ∀ overrides, data.overrides = some overrides →
    overrides.prototype = engine.objectPrototype
  overridesPlain : ∀ overrides, data.overrides = some overrides →
    ∀ key property, overrides.getOwn key = some property → IsPlain property

theorem simulates_create
    (htext : ∀ bytes, Text.validateUtf8 bytes = true → engine.text bytes = bytes)
    (term : BeamMap T) : Simulates engine ⟨term, none⟩ (ordinaryObject engine term) where
  prototype := rfl
  plain key property hown := by
    obtain ⟨entry, -, -, hproperty⟩ := plain_ordinaryObject hown
    exact ⟨_, hproperty.symm⟩
  own key hfinds := by
    rcases hfinds with hwritten | hfinds
    · cases hwritten
    · cases key with
      | string name => exact getOwn_ordinaryObject htext hfinds
      | symbol id description =>
        have hnone : (⟨term, none⟩ : BeamProxyData T V).lookupKey description = none := hfinds
        show _ = ((⟨term, none⟩ : BeamProxyData T V).lookupKey description).map _
        rw [getOwn_ordinaryObject_symbol, hnone, Option.map_none]
  names hnodup := by
    rw [names_ordinaryObject hnodup]
    exact (List.append_nil _).symm
  overridesPrototype _ h := by cases h
  overridesPlain _ h := by cases h

/-! ### Writing -/

section Writing

variable {data : BeamProxyData T V} {object : OrdinaryObject V} {key : PropertyKey}
  (h : Simulates engine data object) (hmay : MayWrite engine data key)
include h

theorem Simulates.ensureOverrides_prototype :
    (data.ensureOverrides engine).prototype = engine.objectPrototype := by
  cases hover : data.overrides with
  | none => rw [BeamProxyData.ensureOverrides, hover]; rfl
  | some overrides =>
    rw [BeamProxyData.ensureOverrides, hover]
    exact h.overridesPrototype overrides hover

theorem Simulates.ensureOverrides_plain (other : PropertyKey) (property : Property V)
    (hown : (data.ensureOverrides engine).getOwn other = some property) : IsPlain property := by
  cases hover : data.overrides with
  | none =>
    rw [BeamProxyData.ensureOverrides, hover] at hown
    cases hown
  | some overrides =>
    rw [BeamProxyData.ensureOverrides, hover] at hown
    exact h.overridesPlain overrides hover other property hown

include hmay

theorem Simulates.writeOverride_eq (value : Value V) :
    data.writeOverride engine key value =
      ⟨data.term, some ((data.ensureOverrides engine).put key (.data value true true true))⟩ := by
  rw [BeamProxyData.writeOverride, OrdinaryObject.set_eq_put value
    (h.ensureOverrides_prototype ▸ hmay.1) (h.ensureOverrides_plain key)]

/-- Only the written name reads differently: the overrides inherit nothing else that is new. -/
theorem Simulates.override_write (value : V) (other : PropertyKey) :
    (data.writeOverride engine key (.of value)).override engine other =
      if other = key then .of value else data.override engine other := by
  rw [h.writeOverride_eq hmay]
  show OrdinaryObject.get engine.call _ other = _
  rw [OrdinaryObject.get, OrdinaryObject.getOwn_put]
  by_cases hother : other = key
  · rw [if_pos hother, if_pos hother]
    rfl
  · rw [if_neg hother, if_neg hother, OrdinaryObject.prototype_put, h.ensureOverrides_prototype,
      BeamProxyData.override, BeamProxyData.ensureOverrides]
    cases hover : data.overrides with
    | some overrides =>
      show _ = OrdinaryObject.get engine.call overrides other
      rw [OrdinaryObject.get, h.overridesPrototype overrides hover]
      rfl
    | none =>
      show (engine.objectPrototype.lookup other).getD .undefined = .undefined
      cases hlookup : engine.objectPrototype.lookup other with
      | none => rfl
      | some inherited =>
        cases inherited with
        | undefined => rfl
        | of found => exact absurd (hmay.2 hover other found hlookup) hother

theorem Simulates.getOwnProperty_write (value : V) (other : PropertyKey) :
    (data.writeOverride engine key (.of value)).getOwnProperty engine other =
      if other = key then some (.data (.of value) true true true)
      else data.getOwnProperty engine other := by
  rw [BeamProxyData.getOwnProperty, h.override_write hmay]
  by_cases hother : other = key
  · rw [if_pos hother, if_pos hother]
  · rw [if_neg hother, if_neg hother]
    rfl

theorem Simulates.written_write (value : Value V) (other : PropertyKey) :
    written (data.writeOverride engine key value) other =
      (decide (other = key) || written data other) := by
  rw [h.writeOverride_eq hmay]
  show (OrdinaryObject.getOwn _ other).isSome = _
  rw [OrdinaryObject.getOwn_put, written, BeamProxyData.ensureOverrides]
  by_cases hother : other = key
  · rw [if_pos hother, decide_eq_true hother]
    rfl
  · rw [if_neg hother, decide_eq_false hother]
    cases data.overrides with
    | none => rfl
    | some overrides => rfl

theorem Simulates.overrideNames_write (value : Value V) :
    overrideNames (data.writeOverride engine key value) =
      if key ∈ overrideNames data then overrideNames data else overrideNames data ++ [key] := by
  have hnames : overrideNames data = (data.ensureOverrides engine).names := by
    rw [overrideNames, BeamProxyData.ensureOverrides]
    cases data.overrides with
    | none => rfl
    | some overrides => rfl
  rw [h.writeOverride_eq hmay, hnames]
  show OrdinaryObject.names _ = _
  by_cases hmem : key ∈ (data.ensureOverrides engine).names
  · rw [if_pos hmem, OrdinaryObject.names_put_of_mem _ hmem]
  · rw [if_neg hmem, OrdinaryObject.names_put_of_not_mem _ hmem]

theorem Simulates.write (value : V) :
    Simulates engine (data.writeOverride engine key (.of value))
      (object.put key (.data (.of value) true true true)) where
  __ := h
  plain other property hown := by
    rw [OrdinaryObject.getOwn_put] at hown
    by_cases hother : other = key
    · rw [if_pos hother] at hown
      exact ⟨_, (Option.some.inj hown).symm⟩
    · rw [if_neg hother] at hown
      exact h.plain other property hown
  own other hfinds := by
    rw [OrdinaryObject.getOwn_put, h.getOwnProperty_write hmay]
    by_cases hother : other = key
    · rw [if_pos hother, if_pos hother]
    · rw [if_neg hother, if_neg hother]
      refine h.own other (hfinds.imp_left fun hwritten => ?_)
      rwa [h.written_write hmay, decide_eq_false hother, Bool.false_or] at hwritten
  names hnodup := by
    have hold := h.names hnodup
    have hterm : (data.writeOverride engine key (.of value)).term = data.term := rfl
    rw [addedNames, hterm, h.overrideNames_write hmay]
    by_cases hmem : key ∈ object.names
    · -- the name keeps its place among those of the map or of the overrides
      rw [OrdinaryObject.names_put_of_mem _ hmem, hold, addedNames]
      congr 1
      by_cases hover : key ∈ overrideNames data
      · rw [if_pos hover]
      · have hmap : key ∈ mapNames engine data.term := by
          rcases List.mem_append.1 (hold ▸ hmem) with hmap | hadded
          · exact hmap
          · exact absurd (List.mem_filter.1 hadded).1 hover
        rw [if_neg hover, List.filter_append, List.filter_singleton, decide_eq_false (not_not.2 hmap)]
        exact (List.append_nil _).symm
    · have hnew : key ∉ mapNames engine data.term ∧ key ∉ overrideNames data := by
        rw [hold, List.mem_append, not_or] at hmem
        exact ⟨hmem.1, fun hover =>
          hmem.2 (List.mem_filter.2 ⟨hover, decide_eq_true hmem.1⟩)⟩
      rw [OrdinaryObject.names_put_of_not_mem _ hmem, hold, addedNames, if_neg hnew.2,
        List.filter_append, List.filter_singleton, decide_eq_true hnew.1, List.append_assoc]
      rfl
  overridesPrototype overrides hover := by
    rw [h.writeOverride_eq hmay] at hover
    rw [← Option.some.inj hover]
    exact h.ensureOverrides_prototype
  overridesPlain overrides hover other property hown := by
    rw [h.writeOverride_eq hmay] at hover
    rw [← Option.some.inj hover, OrdinaryObject.getOwn_put] at hown
    by_cases hother : other = key
    · rw [if_pos hother] at hown
      exact ⟨_, (Option.some.inj hown).symm⟩
    · rw [if_neg hother] at hown
      exact h.ensureOverrides_plain other property hown

end Writing

theorem define_eq_put [DecidableEq V] {object : OrdinaryObject V} {d : Descriptor V} {value : V}
    (hplain : ∀ property, object.getOwn key = some property → IsPlain property)
    (hvalue : d.value = some (.of value)) (hd : DefinesAsWrite d (object.getOwn key)) :
    object.define key d = (object.put key (.data (.of value) true true true), true) := by
  have hdata : d.isAccessor = false := by
    cases haccessor : d.isAccessor with
    | false => rfl
    | true =>
      rw [(d.exclusive haccessor).1] at hvalue
      cases hvalue
  have hflag : ∀ flag : Option Bool, flag ≠ some false → flag.getD true = true := by
    intro flag hne
    cases flag with
    | none => rfl
    | some b =>
      cases b with
      | true => rfl
      | false => exact absurd rfl hne
  rw [OrdinaryObject.define]
  cases hown : object.getOwn key with
  | none =>
    rw [hown] at hd
    obtain ⟨hwritable, henumerable, hconfigurable⟩ := hd.2
    show (object.put key d.created, true) = _
    rw [Descriptor.created, hdata, hvalue, hwritable, henumerable, hconfigurable]
    rfl
  | some property =>
    rw [hown] at hd
    obtain ⟨hwritable, henumerable, hconfigurable⟩ := hd.2
    obtain ⟨old, rfl⟩ := hplain property hown
    have hadmits : (Property.data old true true true).admits d = true := rfl
    show (if _ then _ else _) = _
    rw [if_pos hadmits, Property.updated, hdata, hvalue, hflag _ hwritable, hflag _ henumerable,
      hflag _ hconfigurable]
    rfl

/-! ### Listing -/

theorem readable_of_listed {key : MapKey} (h : ListedInFull key) : Readable key := by
  cases key with
  | binary bytes => exact h.1
  | atom name => exact h.1

theorem namesOneKey_of_listed (h : ∀ key ∈ term.entries.map Prod.fst, ListedInFull key)
    (hnodup : (mapNames engine term).Nodup) (name : List UInt8) : NamesOneKey engine term name := by
  refine ⟨fun key hkey _ => readable_of_listed (h key hkey), ?_⟩
  intro key hkey other hother hnamed hnamed'
  obtain ⟨entry, hentry, rfl⟩ := List.mem_map.1 hkey
  obtain ⟨entry', hentry', rfl⟩ := List.mem_map.1 hother
  rw [List.inj_on_of_nodup_map hnodup hentry hentry' (hnamed.trans hnamed'.symm)]

section Listing

variable (htext : ∀ bytes, Text.validateUtf8 bytes = true → engine.text bytes = bytes)
include htext

theorem keyStr_of_listed {key : MapKey} (h : ListedInFull key) :
    BeamProxyData.keyStr key ≠ [] ∧
      PropertyKey.string (engine.text (BeamProxyData.keyStr key)) = nameOf engine key := by
  cases key with
  | binary bytes =>
    obtain ⟨-, hne, hle⟩ := h
    rw [BeamProxyData.keyStr, List.take_of_length_le hle]
    exact ⟨hne, rfl⟩
  | atom name =>
    obtain ⟨hascii, hne⟩ := h
    rw [BeamProxyData.keyStr, toLatin1_ascii hascii, htext _ (validateUtf8_asciiBytes hascii), nameOf,
      flatMap_utf8EncodeChar hascii]
    exact ⟨fun hnil => hne (List.map_eq_nil_iff.1 hnil), rfl⟩

theorem listedKeys_eq {term : BeamMap T}
    (h : ∀ key ∈ term.entries.map Prod.fst, ListedInFull key) :
    ((term.entries.map fun entry => BeamProxyData.keyStr entry.1).filter fun key => key ≠ []).map
      (fun key => PropertyKey.string (engine.text key)) = mapNames engine term := by
  have hall : ∀ key ∈ term.entries.map fun entry => BeamProxyData.keyStr entry.1,
      decide (key ≠ []) = true := by
    intro key hkey
    obtain ⟨entry, hentry, rfl⟩ := List.mem_map.1 hkey
    exact decide_eq_true (keyStr_of_listed htext (h entry.1 (List.mem_map_of_mem hentry))).1
  rw [List.filter_eq_self.2 hall, List.map_map]
  exact List.map_congr_left fun entry hentry =>
    (keyStr_of_listed htext (h entry.1 (List.mem_map_of_mem hentry))).2

theorem isNone_lookupKey_iff {data : BeamProxyData T V} {name : List UInt8}
    (h : NamesOneKey engine data.term name) :
    (data.lookupKey name).isNone = true ↔ .string name ∉ mapNames engine data.term := by
  rw [Option.isNone_iff_eq_none]
  constructor
  · intro hnone hmem
    obtain ⟨entry, hentry, hname⟩ := List.mem_map.1 hmem
    rw [(lookupKey_eq_some_iff htext h entry.2).2 ⟨entry.1, hentry, hname⟩] at hnone
    cases hnone
  · intro hmem
    cases hfound : data.lookupKey name with
    | none => rfl
    | some term =>
      obtain ⟨key, hkey, hname⟩ := (lookupKey_eq_some_iff htext h term).1 hfound
      exact absurd (List.mem_map.2 ⟨(key, term), hkey, hname⟩) hmem

variable {data : BeamProxyData T V} {object : OrdinaryObject V}
  (h : Simulates engine data object) (hlist : MayList engine data.term object)
include h hlist

theorem Simulates.overrides_listed {overrides : OrdinaryObject V}
    (hover : data.overrides = some overrides) :
    (overrides.keys.filter fun name =>
        (data.lookupKey (BeamProxyData.cString name)).isNone) =
      stringOrder (addedNames engine data) := by
  rw [OrdinaryObject.keys, List.filter_filter, addedNames, overrideNames, hover,
    ← stringOrder_filter]
  refine List.filter_congr fun name hname => ?_
  obtain ⟨hmem, hstring⟩ := mem_stringOrder.1 hname
  have henumerable : overrides.isEnumerable name = true := by
    obtain ⟨property, hown⟩ := Option.isSome_iff_exists.1 (OrdinaryObject.isSome_getOwn_iff.2 hmem)
    obtain ⟨value, rfl⟩ := h.overridesPlain overrides hover name property hown
    rw [OrdinaryObject.isEnumerable, hown]
    rfl
  cases name with
  | symbol id description => cases hstring
  | string utf8 =>
    rw [henumerable, Bool.and_true]
    exact Bool.eq_iff_iff.2 ((isNone_lookupKey_iff htext
      (namesOneKey_of_listed hlist.1 hlist.2.1 utf8)).trans decide_eq_true_iff.symm)

theorem Simulates.getOwnPropertyNames_eq :
    data.getOwnPropertyNames engine = stringOrder object.names := by
  have hadded : object.names.filter (fun name => name ∉ mapNames engine data.term) =
      addedNames engine data := by
    have hmap : (mapNames engine data.term).filter (fun name => name ∉ mapNames engine data.term) =
        [] := List.filter_eq_nil_iff.2 fun name hname => by
      rw [decide_eq_true_iff, not_not]
      exact hname
    rw [h.names hlist.2.1, List.filter_append, hmap, List.nil_append, addedNames,
      List.filter_filter]
    exact List.filter_congr fun name _ => Bool.and_self _
  have horder := hlist.2.2
  rw [hadded] at horder
  rw [horder, BeamProxyData.getOwnPropertyNames, listedKeys_eq htext hlist.1]
  cases hover : data.overrides with
  | some overrides => exact congrArg _ (h.overrides_listed htext hlist hover)
  | none =>
    rw [addedNames, overrideNames, hover]
    rfl

theorem Simulates.keys_eq : data.keys engine = object.keys := by
  rw [BeamProxyData.keys, h.getOwnPropertyNames_eq htext hlist, OrdinaryObject.keys]
  refine List.filter_congr fun name hname => ?_
  obtain ⟨hmem, hstring⟩ := mem_stringOrder.1 hname
  obtain ⟨property, hown⟩ := Option.isSome_iff_exists.1 (OrdinaryObject.isSome_getOwn_iff.2 hmem)
  have hfinds : FindsOwn engine data name := by
    cases name with
    | string utf8 => exact .inr (namesOneKey_of_listed hlist.1 hlist.2.1 utf8)
    | symbol id description => cases hstring
  obtain ⟨value, rfl⟩ := h.plain name property hown
  rw [← h.own name hfinds, OrdinaryObject.isEnumerable, hown]
  rfl

end Listing

/-! ### One operation -/

theorem BeamProxyData.hasProperty_eq (data : BeamProxyData T V) (key : PropertyKey) :
    data.hasProperty engine key = (data.getOwnProperty engine key).isSome := by
  rw [BeamProxyData.hasProperty, BeamProxyData.getOwnProperty]
  cases data.override engine key with
  | of value => rfl
  | undefined => exact (Option.isSome_map).symm

theorem behaves_create (term : BeamMap T) : BehavesPlainly engine (create engine term) where
  observed _ hin := absurd hin List.not_mem_nil
  unnamed _ hin := absurd hin List.not_mem_nil

section Steps

variable [DecidableEq V] {s : State T V} {operation : Operation V}

theorem shown_eq (htext : ∀ bytes, Text.validateUtf8 bytes = true → engine.text bytes = bytes)
    (h : Simulates engine s.proxy s.object) (hc : StepCondition engine s operation) :
    (runProxy engine s.proxy operation).2 = (runObject engine s.object operation).2 := by
  cases operation with
  | get key =>
    refine congrArg Observation.value ?_
    rw [BeamProxyData.get, OrdinaryObject.get, h.own key hc, h.prototype]
    cases s.proxy.getOwnProperty engine key with
    | none => rfl
    | some property => rfl
  | getOwn key => exact congrArg Observation.property (h.own key hc).symm
  | set key value =>
    refine congrArg Observation.done ?_
    rw [OrdinaryObject.set_eq_put value (h.prototype ▸ hc.1.1) (h.plain key)]
    rfl
  | define key d =>
    refine congrArg Observation.done ?_
    obtain ⟨value, hvalue⟩ := hc.2.1
    rw [define_eq_put (h.plain key) hvalue hc.2]
    rfl
  | delete key =>
    refine congrArg Observation.done ?_
    rw [OrdinaryObject.delete_of_not_own hc]
  | has key =>
    refine congrArg Observation.done ?_
    rw [BeamProxyData.hasProperty_eq, ← h.own key hc.1, OrdinaryObject.has, h.prototype]
    cases hown : s.object.getOwn key with
    | some property => rfl
    | none => rw [hc.2 hown]; rfl
  | ownKeys =>
    refine congrArg Observation.names ?_
    have hsymbols : s.object.names.filter PropertyKey.isSymbol = [] :=
      List.filter_eq_nil_iff.2 fun name hname => by rw [hc.2 name hname]; exact Bool.false_ne_true
    rw [h.getOwnPropertyNames_eq htext hc.1, OrdinaryObject.ownKeys, hsymbols, List.append_nil]
  | keys => exact congrArg Observation.names (h.keys_eq htext hc)

theorem simulates_step (h : Simulates engine s.proxy s.object)
    (hc : StepCondition engine s operation) :
    Simulates engine (stepBoth engine s operation).proxy (stepBoth engine s operation).object := by
  cases operation with
  | get key => exact h
  | getOwn key => exact h
  | set key value =>
    cases value with
    | undefined => exact absurd rfl hc.2
    | of value =>
      have hset : (s.object.set engine.prototypeOf key (.of value)).1 =
          s.object.put key (.data (.of value) true true true) := by
        rw [OrdinaryObject.set_eq_put _ (h.prototype ▸ hc.1.1) (h.plain key)]
      show Simulates engine (s.proxy.writeOverride engine key (.of value))
        (s.object.set engine.prototypeOf key (.of value)).1
      rw [hset]
      exact h.write hc.1 value
  | define key d =>
    obtain ⟨value, hvalue⟩ := hc.2.1
    show Simulates engine (s.proxy.writeOverride engine key (d.value.getD .undefined))
      (s.object.define key d).1
    rw [define_eq_put (h.plain key) hvalue hc.2, hvalue]
    exact h.write hc.1 value
  | delete key =>
    show Simulates engine s.proxy (s.object.delete key).1
    rw [OrdinaryObject.delete_of_not_own hc]
    exact h
  | has key => exact h
  | ownKeys => exact h
  | keys => exact h

theorem unnamed_kept (h : Simulates engine s.proxy s.object)
    (hc : StepCondition engine s operation) {key : PropertyKey} (hkey : operation.key? ≠ some key) :
    (stepBoth engine s operation).proxy.getOwnProperty engine key =
        s.proxy.getOwnProperty engine key ∧
      (stepBoth engine s operation).proxy.hasProperty engine key =
        s.proxy.hasProperty engine key := by
  have hproperty : (stepBoth engine s operation).proxy.getOwnProperty engine key =
      s.proxy.getOwnProperty engine key := by
    cases operation with
    | get other => rfl
    | getOwn other => rfl
    | set other value =>
      have hne : key ≠ other := fun heq => hkey (congrArg some heq.symm)
      cases value with
      | undefined => exact absurd rfl hc.2
      | of value => exact (h.getOwnProperty_write hc.1 value key).trans (if_neg hne)
    | define other d =>
      have hne : key ≠ other := fun heq => hkey (congrArg some heq.symm)
      obtain ⟨value, hvalue⟩ := hc.2.1
      show (s.proxy.writeOverride engine other (d.value.getD .undefined)).getOwnProperty engine key = _
      rw [hvalue]
      exact (h.getOwnProperty_write hc.1 value key).trans (if_neg hne)
    | delete other => rfl
    | has other => rfl
    | ownKeys => rfl
    | keys => rfl
  refine ⟨hproperty, ?_⟩
  rw [BeamProxyData.hasProperty_eq, BeamProxyData.hasProperty_eq, hproperty]

theorem behaves_step
    (htext : ∀ bytes, Text.validateUtf8 bytes = true → engine.text bytes = bytes)
    (h : Simulates engine s.proxy s.object) (hbehaves : BehavesPlainly engine s)
    (hc : StepCondition engine s operation) :
    BehavesPlainly engine (stepBoth engine s operation) where
  observed step hin := by
    rcases List.mem_append.1 hin with hold | hnew
    · exact hbehaves.observed step hold
    · rw [List.mem_singleton.1 hnew]
      exact shown_eq htext h hc
  unnamed step hin key hkey := by
    rcases List.mem_append.1 hin with hold | hnew
    · exact hbehaves.unnamed step hold key hkey
    · rw [List.mem_singleton.1 hnew] at hkey ⊢
      exact unnamed_kept h hc hkey

end Steps

/-! ### Runs -/

/-- **Proxies behave like ordinary objects.**  In every run whose operations all meet the condition,
each observation is the one of the ordinary object, and no operation touches a property that it does
not name. -/
theorem behavesPlainly [DecidableEq V] (engine : Engine T V)
    (htext : ∀ bytes, Text.validateUtf8 bytes = true → engine.text bytes = bytes) {s : State T V}
    (h : (machine engine).ReachableIf (StepCondition engine) s) : BehavesPlainly engine s := by
  have hboth : Simulates engine s.proxy s.object ∧ BehavesPlainly engine s := by
    refine Machine.ReachableIf.invariant
      (I := fun s => Simulates engine s.proxy s.object ∧ BehavesPlainly engine s) ?_ ?_ h
    · rintro s ⟨term, rfl⟩
      exact ⟨simulates_create htext term, behaves_create term⟩
    · rintro s operation s' ⟨hsimulates, hbehaves⟩ hc hstep
      rw [← Option.some.inj hstep]
      exact ⟨simulates_step hsimulates hc, behaves_step htext hsimulates hbehaves hc⟩
  exact hboth.2

/-- Values are numbers, and nothing is left of `Object.prototype`. -/
def bareEngine : Engine ℕ ℕ where
  text := id
  convertValue := .of
  call := fun _ => .undefined
  prototypeOf := fun _ => none
  objectPrototype := ⟨fun _ => none, fun _ => .create⟩

def sampleMap : BeamMap ℕ := ⟨[(.atom ['b'], 2), (.binary [97], 1)], by decide⟩

theorem sampleMap_listed : ∀ key ∈ sampleMap.entries.map Prod.fst, ListedInFull key := by
  intro key hkey
  rcases List.mem_cons.1 hkey with rfl | hkey
  · have hascii : ∀ c ∈ ['b'], c.toNat < 128 := fun c hc => by
      rw [List.mem_singleton.1 hc]
      decide
    exact ⟨hascii, List.cons_ne_nil _ _⟩
  · have hascii : ∀ b ∈ [(97 : UInt8)], b < 0x80 := fun b hb => by
      rw [List.mem_singleton.1 hb]
      decide
    rw [List.mem_singleton.1 hkey]
    exact ⟨validateUtf8_ascii hascii, List.cons_ne_nil _ _, by decide⟩

/-- `obj.c = 3`, then `obj.a`, `"c" in obj`, `delete obj.d` and `Object.keys(obj)`. -/
def sampleRun : List (Operation ℕ) :=
  [.set (.string [99]) (.of 3), .get (.string [97]), .has (.string [99]), .delete (.string [100]),
    .keys]

theorem behavesPlainly_sampleRun :
    ∃ s, (machine bareEngine).exec (create bareEngine sampleMap) sampleRun = some s ∧
      s.steps.length = 5 ∧ BehavesPlainly bareEngine s := by
  refine ⟨_, rfl, rfl, behavesPlainly bareEngine (fun _ _ => rfl)
    ⟨create bareEngine sampleMap, sampleRun, ⟨_, rfl⟩, ?_⟩⟩
  refine .cons ⟨⟨rfl, fun _ _ _ h => by cases h⟩, nofun⟩ rfl <|
    .cons (.inr ?_) rfl <| .cons ⟨.inl rfl, fun _ => rfl⟩ rfl <| .cons rfl rfl <|
    .cons ?_ rfl <| .nil _
  · exact namesOneKey_of_listed sampleMap_listed (by decide) [97]
  · exact ⟨sampleMap_listed, by decide, rfl⟩

/-- A deleted property stays. -/
theorem deleted_property_stays :
    ¬ ∀ s, (machine bareEngine).Reachable s → BehavesPlainly bareEngine s := by
  intro hall
  have hrun : (machine bareEngine).exec (create bareEngine sampleMap)
      [.delete (.string [97]), .has (.string [97])] = some _ := rfl
  have h := (hall _ (Machine.reachable_of_exec ⟨_, rfl⟩ hrun)).observed _
    (List.mem_cons_of_mem _ List.mem_cons_self)
  cases h

end QuickBeam.Convert.MapProxy
