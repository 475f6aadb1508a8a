import QuickBeam.Vm.Runtime.HeapInvariant

/-!
# Fixed properties stay

A property that is neither configurable nor writable keeps its value and its flags, and an object
that is not extensible gets no new key, along every run of the writing operations but two kinds
of step: emptying an array (`sort` does) that has a fixed index or a fixed length, and a
definition whose value is equal to the fixed one only as a number (`0` and `-0`).  The object
that `Object.freeze` returns is not extensible; its properties stay as writable as they were.
-/

namespace QuickBeam.Vm.Runtime

open QuickBeam.Lib QuickBeam.Vm.Program

/-! ### The same value -/

/-- `SameValue`: the same term, or the same number with the same sign of zero. -/
def SameValue (a b : Value) : Prop :=
  a = b ∨ (a.isNumber = true ∧ b.isNumber = true ∧ a.units = b.units ∧
    (a = .float .negZero ↔ b = .float .negZero))

theorem SameValue.refl (a : Value) : SameValue a a := .inl rfl

theorem SameValue.trans {a b c : Value} (hab : SameValue a b) (hbc : SameValue b c) :
    SameValue a c := by
  rcases hab with rfl | ⟨ha, hb, hu, hz⟩
  · exact hbc
  · rcases hbc with rfl | ⟨-, hc, hu', hz'⟩
    · exact .inr ⟨ha, hb, hu, hz⟩
    · exact .inr ⟨ha, hc, hu.trans hu', hz.trans hz'⟩

def Descriptor.Fixed (d : Descriptor) : Prop := d.configurable = false ∧ d.writable = false

structure Descriptor.Same (d d' : Descriptor) : Prop where
  value : SameValue d.value d'.value
  writable : d'.writable = d.writable
  getter : d'.getter = d.getter
  setter : d'.setter = d.setter
  isAccessor : d'.isAccessor = d.isAccessor
  enumerable : d'.enumerable = d.enumerable
  configurable : d'.configurable = d.configurable

theorem Descriptor.Same.refl (d : Descriptor) : d.Same d :=
  ⟨.refl _, rfl, rfl, rfl, rfl, rfl, rfl⟩

theorem Descriptor.Same.trans {d e f : Descriptor} (h : d.Same e) (h' : e.Same f) : d.Same f :=
  ⟨h.value.trans h'.value, h'.writable.trans h.writable, h'.getter.trans h.getter,
    h'.setter.trans h.setter, h'.isAccessor.trans h.isAccessor,
    h'.enumerable.trans h.enumerable, h'.configurable.trans h.configurable⟩

theorem Descriptor.Same.fixed {d d' : Descriptor} (h : d.Same d') (hd : d.Fixed) : d'.Fixed :=
  ⟨h.configurable.trans hd.1, h.writable.trans hd.2⟩

/-! ### What a write keeps of an object -/

structure ObjectKeeps (o o' : Object) : Prop where
  kind : o'.kind = o.kind
  fixed : ∀ key d, o.properties.get? key = some (.full d) → d.Fixed →
    ∃ d', o'.properties.get? key = some (.full d') ∧ d.Same d'
  length : o.kind = .array → o.lengthWritable = false →
    o'.lengthWritable = false ∧ o'.length = o.length
  closed : o.extensible = false → o'.extensible = false ∧
    ∀ key, o'.properties.hasKey key = true → o.properties.hasKey key = true

theorem ObjectKeeps.refl (o : Object) : ObjectKeeps o o :=
  ⟨rfl, fun _ d hd _ => ⟨d, hd, .refl d⟩, fun _ hw => ⟨hw, rfl⟩, fun he => ⟨he, fun _ hk => hk⟩⟩

theorem ObjectKeeps.trans {o p q : Object} (h : ObjectKeeps o p) (h' : ObjectKeeps p q) :
    ObjectKeeps o q := by
  refine ⟨h'.kind.trans h.kind, fun key d hd hfix => ?_, fun ho hw => ?_, fun he => ?_⟩
  · obtain ⟨e, he, hde⟩ := h.fixed key d hd hfix
    obtain ⟨f, hf, hef⟩ := h'.fixed key e he (hde.fixed hfix)
    exact ⟨f, hf, hde.trans hef⟩
  · obtain ⟨hw', hl⟩ := h.length ho hw
    obtain ⟨hw'', hl'⟩ := h'.length (h.kind.trans ho) hw'
    exact ⟨hw'', hl'.trans hl⟩
  · obtain ⟨he', hk⟩ := h.closed he
    obtain ⟨he'', hk'⟩ := h'.closed he'
    exact ⟨he'', fun key h => hk key (hk' key h)⟩

namespace Object

theorem extensible_rememberProperty (o : Object) (key : Key) :
    (o.rememberProperty key).extensible = o.extensible := by
  rw [o.rememberProperty_keeps key]

theorem lengthWritable_rememberProperty (o : Object) (key : Key) :
    (o.rememberProperty key).lengthWritable = o.lengthWritable := by
  rw [o.rememberProperty_keeps key]

theorem extensible_putDefaultProperty (o : Object) (key : Key) (value : Value) :
    (o.putDefaultProperty key value).extensible = o.extensible := by
  rw [o.putDefaultProperty_keeps key value]

theorem lengthWritable_putDefaultProperty (o : Object) (key : Key) (value : Value) :
    (o.putDefaultProperty key value).lengthWritable = o.lengthWritable := by
  rw [o.putDefaultProperty_keeps key value]

end Object

/-- The key may be stored: it is there, or the object takes new keys. -/
def Object.Open (o : Object) (key : Key) : Prop :=
  o.properties.hasKey key = true ∨ o.extensible = true

def Object.Grows (o : Object) (key : Key) : Prop :=
  o.kind = .array → o.lengthWritable = false → Object.beyond o.length key = false

variable {key : Key} {o : Object}

theorem closed_put (hopen : o.Open key) (he : o.extensible = false) {stored : Stored} {k : Key}
    (hk : (o.properties.put key stored).hasKey k = true) : o.properties.hasKey k = true := by
  rcases (hasKey_put_iff ..).1 hk with rfl | hk
  · exact hopen.resolve_right (fun h => by rw [he] at h; cases h)
  · exact hk

theorem keeps_putDefaultProperty (value : Value)
    (hfix : ∀ d, o.properties.get? key = some (.full d) → ¬ d.Fixed) (hopen : o.Open key)
    (hgrows : o.Grows key) : ObjectKeeps o (o.putDefaultProperty key value) where
  kind := o.kind_putDefaultProperty key value
  fixed k d hd hf := by
    have hne : k ≠ key := by
      rintro rfl
      exact hfix d hd hf
    rw [o.properties_putDefaultProperty, Assoc.get?_put_ne _ _ hne]
    exact ⟨d, hd, .refl d⟩
  length ho hw := by
    rw [o.lengthWritable_putDefaultProperty]
    refine ⟨hw, ?_⟩
    cases key with
    | index i =>
      have hb : ¬ o.length ≤ i := of_decide_eq_false (hgrows ho hw)
      rw [Object.length_putDefaultProperty_index ho]
      omega
    | name v => exact o.length_putDefaultProperty_name v value
  closed he := by
    rw [o.extensible_putDefaultProperty, o.properties_putDefaultProperty]
    exact ⟨he, fun k => closed_put hopen he⟩

theorem keeps_putPropertyStruct {property : Descriptor}
    (hfix : ∀ d, o.properties.get? key = some (.full d) → d.Fixed → d.Same property)
    (hopen : o.Open key) (hgrows : property.isDefault = true → o.Grows key) :
    ObjectKeeps o (o.putPropertyStruct key property) := by
  cases hd : property.isDefault with
  | true =>
    have hconf : property.configurable = true := (Bool.and_eq_true_iff.1 hd).2
    have hput : o.putPropertyStruct key property = o.putDefaultProperty key property.value := by
      unfold Object.putPropertyStruct
      rw [if_pos hd]
    rw [hput]
    refine keeps_putDefaultProperty _ (fun d hget hf => ?_) hopen (hgrows hd)
    have hsame := (hfix d hget hf).configurable
    rw [hconf, hf.1] at hsame
    cases hsame
  | false =>
    rw [Object.putPropertyStruct_of_not_default hd]
    refine ⟨o.kind_rememberProperty key, fun k d hget hf => ?_, fun _ hw => ⟨?_, ?_⟩,
      fun he => ⟨?_, fun k => closed_put hopen he⟩⟩
    · by_cases hk : k = key
      · subst hk
        exact ⟨property, Assoc.get?_put .., hfix d hget hf⟩
      · exact ⟨d, (Assoc.get?_put_ne _ _ hk).trans hget, .refl d⟩
    · exact (o.lengthWritable_rememberProperty key).trans hw
    · exact o.length_rememberProperty key
    · exact (o.extensible_rememberProperty key).trans he

/-! ### What every write keeps of the storage -/

/-- Default flags are stored as a bare value, and a bare value at an index counts in the length. -/
structure Compact (o : Object) : Prop where
  full : ∀ key d, o.properties.get? key = some (.full d) → d.isDefault = false
  index_lt : o.kind = .array → ∀ i v, o.properties.get? (.index i) = some (.default v) →
    i < o.length

theorem Compact.putDefaultProperty (h : Compact o) (key : Key) (value : Value) :
    Compact (o.putDefaultProperty key value) := by
  constructor
  · intro k d hd
    rw [o.properties_putDefaultProperty] at hd
    obtain ⟨-, hd⟩ | ⟨-, hd⟩ := Assoc.get?_put_cases hd
    · cases hd
    · exact h.full k d hd
  · intro ho i v hv
    rw [o.kind_putDefaultProperty] at ho
    rw [o.properties_putDefaultProperty] at hv
    cases key with
    | index j =>
      rw [Object.length_putDefaultProperty_index ho]
      obtain ⟨hij, -⟩ | ⟨-, hv⟩ := Assoc.get?_put_cases hv
      · cases hij
        omega
      · have := h.index_lt ho i v hv
        omega
    | name w =>
      rw [o.length_putDefaultProperty_name]
      obtain ⟨hij, -⟩ | ⟨-, hv⟩ := Assoc.get?_put_cases hv
      · cases hij
      · exact h.index_lt ho i v hv

theorem Compact.putPropertyStruct (h : Compact o) (key : Key) (property : Descriptor) :
    Compact (o.putPropertyStruct key property) := by
  cases hd : property.isDefault with
  | true =>
    unfold Object.putPropertyStruct
    rw [if_pos hd]
    exact h.putDefaultProperty key _
  | false =>
    rw [Object.putPropertyStruct_of_not_default hd]
    constructor
    · intro k d hget
      obtain ⟨-, hs⟩ | ⟨-, hget⟩ := Assoc.get?_put_cases hget
      · cases hs
        exact hd
      · exact h.full k d hget
    · intro ho i v hv
      show i < (o.rememberProperty key).length
      rw [o.length_rememberProperty]
      obtain ⟨-, hs⟩ | ⟨-, hv⟩ := Assoc.get?_put_cases hv
      · cases hs
      · exact h.index_lt ((o.kind_rememberProperty key).symm.trans ho) i v hv

theorem Compact.putProperty (h : Compact o) (key : Key) (value : Value) :
    Compact (o.putProperty key value) := by
  unfold Object.putProperty
  split
  · exact h.putDefaultProperty key value
  · exact h.putPropertyStruct key _
  · exact h.putDefaultProperty key value

theorem Compact.mono {o o' : Object} (h : Compact o) (hkind : o'.kind = o.kind)
    (hprops : ∀ key stored, o'.properties.get? key = some stored →
      o.properties.get? key = some stored ∧
        (o.kind = .array → ∀ i, key = .index i → i < o.length → i < o'.length)) :
    Compact o' := by
  constructor
  · exact fun key d hd => h.full key d (hprops key _ hd).1
  · intro ho i v hv
    have ho' := hkind.symm.trans ho
    obtain ⟨hv', hlt⟩ := hprops _ _ hv
    exact hlt ho' i rfl (h.index_lt ho' i v hv')

namespace Heap

/-! ### Validation -/

/-- A fixed property is redefined with a value that is the same, not only an equal number. -/
structure Faithful (d p : Descriptor) : Prop where
  value : p.value.looselySame d.value = true → SameValue d.value p.value
  getter : sameFunction p.getter d.getter = true → p.getter = d.getter
  setter : sameFunction p.setter d.setter = true → p.setter = d.setter

variable {key : Key} {u : Unit}

/-- **A definition that passes over a fixed property agrees with it.** -/
theorem same_of_validateFixedDefinition {d p : Descriptor}
    (h : validateFixedDefinition key d p = .ok u) (hd : d.Fixed)
    (hfaithful : p.configurable = false → Faithful d p) : d.Same p := by
  obtain ⟨_, hconf, h⟩ := bind_eq_ok h
  obtain ⟨_, henum, h⟩ := bind_eq_ok h
  obtain ⟨_, hkind, h⟩ := bind_eq_ok h
  obtain ⟨_, hfunctions, hreadonly⟩ := bind_eq_ok h
  have hconf : p.configurable = false := Bool.not_eq_true' _ ▸ check_eq_ok hconf
  have henum : p.enumerable = d.enumerable := of_decide_eq_true (check_eq_ok henum)
  have hkind : p.isAccessor = d.isAccessor := of_decide_eq_true (check_eq_ok hkind)
  have hfunctions := check_eq_ok hfunctions
  have hreadonly := check_eq_ok hreadonly
  have hf := hfaithful hconf
  obtain ⟨dcontent, denum, dconf⟩ := d
  obtain ⟨pcontent, penum, pconf⟩ := p
  cases dcontent with
  | data v w =>
    cases pcontent with
    | accessor g s => cases hkind
    | data v' w' =>
      obtain ⟨hdconf, hw⟩ := hd
      change w = false at hw
      subst hw
      obtain ⟨hw', hv⟩ := Bool.and_eq_true_iff.1 hreadonly
      refine ⟨hf.value hv, ?_, rfl, rfl, rfl, henum, hconf.trans hdconf.symm⟩
      exact Bool.not_eq_true' _ ▸ hw'
  | accessor g s =>
    cases pcontent with
    | data v w => cases hkind
    | accessor g' s' =>
      obtain ⟨hg, hs⟩ := Bool.and_eq_true_iff.1 hfunctions
      exact ⟨.refl _, rfl, hf.getter hg, hf.setter hs, rfl, henum, hconf.trans hd.1.symm⟩

variable {o : Object} {p : Descriptor}

theorem validateDefinition_ok (h : validateDefinition o key p = .ok u) :
    o.Open key ∧ (p.isDefault = true → o.Grows key) ∧
      ∀ d, o.properties.get? key = some (.full d) → d.configurable = false →
        validateFixedDefinition key d p = .ok u := by
  have hgrowth : validateArrayGrowth o key = .ok u → o.Grows key := by
    intro hv ho hw
    have hb := check_eq_ok hv
    rw [decide_eq_true ho, hw, Bool.not_false, Bool.true_and, Bool.true_and] at hb
    exact Bool.not_eq_true' _ ▸ hb
  unfold validateDefinition at h
  cases hget : o.properties.get? key with
  | none =>
    rw [hget] at h
    dsimp only at h
    split at h
    · rename_i he
      exact ⟨.inr he, fun _ => hgrowth h, fun d hd => (by cases hd)⟩
    · cases h
  | some stored =>
    rw [hget] at h
    have hopen : o.Open key := .inl (Assoc.hasKey_iff.2 ⟨stored, hget⟩)
    cases stored with
    | default v => exact ⟨hopen, fun _ => hgrowth h, fun d hd => (by cases hd)⟩
    | full current =>
      dsimp only at h
      split at h
      · rename_i hconf
        refine ⟨hopen, fun _ => hgrowth h, fun d hd hc => ?_⟩
        cases hd
        rw [hconf] at hc
        cases hc
      · refine ⟨hopen, fun hdefault => ?_, fun d hd _ => ?_⟩
        · obtain ⟨_, hc, -⟩ := bind_eq_ok h
          have hpc : p.configurable = true := (Bool.and_eq_true_iff.1 hdefault).2
          rw [hpc] at hc
          cases hc
        · cases hd
          exact h

/-! ### Heaps -/

structure StoredOk (h : Heap) : Prop where
  compact : ∀ id o, h.objects.get? id = some o → Compact o
  id_lt : ∀ id o, h.objects.get? id = some o → id < h.nextObjectId

def Keeps (h h' : Heap) : Prop :=
  ∀ id o, h.objects.get? id = some o → ∃ o', h'.objects.get? id = some o' ∧ ObjectKeeps o o'

theorem Keeps.refl (h : Heap) : Keeps h h := fun _ o ho => ⟨o, ho, .refl o⟩

theorem Keeps.trans {h h₁ h₂ : Heap} (hk : Keeps h h₁) (hk' : Keeps h₁ h₂) : Keeps h h₂ := by
  intro id o ho
  obtain ⟨p, hp, hop⟩ := hk id o ho
  obtain ⟨q, hq, hpq⟩ := hk' id p hp
  exact ⟨q, hq, hop.trans hpq⟩

/-- What an operation does: the storage stays in order, and what is fixed is kept if the
operation is allowed. -/
structure Sound (h h' : Heap) (allowed : Prop) : Prop where
  stored : StoredOk h'
  keeps : allowed → Keeps h h'

variable {h h' : Heap}

theorem Sound.mono {p q : Prop} (hs : Sound h h' p) (hpq : q → p) :
    Sound h h' q := ⟨hs.stored, fun hq => hs.keeps (hpq hq)⟩

variable {id : ℕ}

theorem sound_store (hok : StoredOk h) {o o' : Object} {allowed : Prop}
    (hget : h.objects.get? id = some o) (hcompact : Compact o')
    (hkeeps : allowed → ObjectKeeps o o') : Sound h (h.store id o') allowed := by
  refine ⟨⟨fun j p hj => ?_, fun j p hj => ?_⟩, fun ha j p hj => ?_⟩
  · obtain ⟨-, rfl⟩ | ⟨-, hj⟩ := Assoc.get?_put_cases hj
    · exact hcompact
    · exact hok.compact j p hj
  · obtain ⟨rfl, -⟩ | ⟨-, hj⟩ := Assoc.get?_put_cases hj
    · exact hok.id_lt j o hget
    · exact hok.id_lt j p hj
  · by_cases hid : j = id
    · subst hid
      rw [hget] at hj
      cases hj
      exact ⟨o', Assoc.get?_put .., hkeeps ha⟩
    · exact ⟨p, (Assoc.get?_put_ne _ _ hid).trans hj, .refl p⟩

theorem sound_storeNew (hok : StoredOk h) (ho : Compact o) : Sound h (h.storeNew o).2 True := by
  refine ⟨⟨fun j p hj => ?_, fun j p hj => ?_⟩, fun _ j p hj => ?_⟩
  · obtain ⟨-, rfl⟩ | ⟨-, hj⟩ := Assoc.get?_put_cases hj
    · exact ho
    · exact hok.compact j p hj
  · obtain ⟨rfl, -⟩ | ⟨-, hj⟩ := Assoc.get?_put_cases hj
    · exact Nat.lt_succ_self _
    · exact Nat.lt_succ_of_lt (hok.id_lt j p hj)
  · have hne : j ≠ h.nextObjectId := Nat.ne_of_lt (hok.id_lt j p hj)
    exact ⟨p, (Assoc.get?_put_ne _ _ hne).trans hj, .refl p⟩

/-- A definition at `key` that is faithful to a fixed property there. -/
def FaithfulAt (h : Heap) (id : ℕ) (key : Key) (p : Descriptor) : Prop :=
  ∀ o d, h.objects.get? id = some o → o.properties.get? key = some (.full d) → d.Fixed →
    p.configurable = false → Faithful d p

theorem sound_storeDescriptor (hok : StoredOk h) (hget : h.objects.get? id = some o)
    (hs : h.storeDescriptor id o key p = .ok h') : Sound h h' (h.FaithfulAt id key p) := by
  obtain ⟨_, hv, hs⟩ := bind_eq_ok hs
  cases hs
  obtain ⟨hopen, hgrows, hvalid⟩ := validateDefinition_ok hv
  refine sound_store hok hget ((hok.compact id o hget).putPropertyStruct key p) fun ha => ?_
  refine keeps_putPropertyStruct (fun d hd hf => ?_) hopen hgrows
  exact same_of_validateFixedDefinition (hvalid d hd hf.1) hf (ha o d hget hd hf)

theorem sound_storeExisting (hok : StoredOk h) (hget : h.objects.get? id = some o)
    (ho : o.kind = .array) {i : ℕ} {old : Value}
    (hold : o.properties.get? (.index i) = some (.default old)) (value : Value) :
    Sound h (h.storeDefaultArrayIndex id o i value) True := by
  have hc := hok.compact id o hget
  rw [storeDefaultArrayIndex_eq ho]
  refine sound_store hok hget (hc.putDefaultProperty _ value) fun _ => ?_
  refine keeps_putDefaultProperty value (fun d hd => ?_) (.inl (Assoc.hasKey_iff.2 ⟨_, hold⟩))
    fun _ _ => decide_eq_false (Nat.not_le.2 (hc.index_lt ho i old hold))
  rw [hold] at hd
  cases hd

theorem sound_storeNewIndex (hok : StoredOk h) (hget : h.objects.get? id = some o)
    (ho : o.kind = .array) {i : ℕ} (hnew : o.properties.get? (.index i) = none)
    (he : o.extensible = true) (hlength : (decide (i < o.length) || o.lengthWritable) = true)
    (value : Value) : Sound h (h.storeDefaultArrayIndex id o i value) True := by
  have hc := hok.compact id o hget
  rw [storeDefaultArrayIndex_eq ho]
  refine sound_store hok hget (hc.putDefaultProperty _ value) fun _ => ?_
  refine keeps_putDefaultProperty value (fun d hd => ?_) (.inr he) fun _ hw => ?_
  · rw [hnew] at hd
    cases hd
  · rw [hw, Bool.or_false] at hlength
    exact decide_eq_false (Nat.not_le.2 (of_decide_eq_true hlength))

/-! ### Lengths -/

variable {value : Value}

theorem keeps_setLength {o o' : Object} (hc : Compact o) (hs : setLength o value = .ok o') :
    Compact o' ∧ ObjectKeeps o o' ∧ o.lengthWritable = true := by
  obtain ⟨_, hw, hs⟩ := bind_eq_ok hs
  have hw := check_eq_ok hw
  obtain ⟨length, -, hs⟩ := bind_eq_ok hs
  unfold resizeArray at hs
  split at hs
  · rename_i hle
    cases hs
    refine ⟨hc.mono rfl fun key stored hk => ⟨hk, fun _ i _ hi => Nat.lt_of_lt_of_le hi hle⟩,
      ⟨rfl, fun _ d hd _ => ⟨d, hd, .refl d⟩, fun _ hnw => ?_, fun he => ⟨he, fun _ hk => hk⟩⟩, hw⟩
    rw [hw] at hnw
    cases hnw
  · dsimp only at hs
    split at hs
    · cases hs
    · rename_i hnone
      cases hs
      have hkept : ∀ key stored, (o.properties.filterKeys fun key =>
          !Object.beyond length key).get? key = some stored →
          Object.beyond length key = false ∧ o.properties.get? key = some stored := by
        intro key stored hk
        rw [Assoc.get?_filterKeys] at hk
        split at hk
        · rename_i hb
          exact ⟨Bool.not_eq_true' _ ▸ hb, hk⟩
        · cases hk
      refine ⟨hc.mono rfl fun key stored hk => ?_, ⟨rfl, fun key d hd hf => ?_, fun _ hnw => ?_,
        fun he => ⟨he, fun key hk => ((hasKey_filterKeys_iff ..).1 hk).2⟩⟩, hw⟩
      · obtain ⟨hb, hk⟩ := hkept key stored hk
        refine ⟨hk, fun _ i hi _ => ?_⟩
        rw [hi] at hb
        exact Nat.not_le.1 (of_decide_eq_false hb)
      · -- a fixed property beyond the new length would have refused it
        refine ⟨d, ?_, .refl d⟩
        show (o.properties.filterKeys _).get? key = _
        rw [Assoc.get?_filterKeys]
        cases hb : Object.beyond length key with
        | false => exact hd
        | true =>
          refine absurd (List.any_eq_true.2 ⟨(key, .full d), ?_, ?_⟩) hnone
          · exact List.mem_filter.2 ⟨Assoc.mem_toList.2 hd, hb⟩
          · show (!d.configurable) = true
            rw [hf.1]
            rfl
      · rw [hw] at hnw
        cases hnw

theorem not_full_elements (values : List Value) (first : ℕ) (key : Key) (d : Descriptor) :
    (elements first values).get? key ≠ some (.full d) := by
  induction values generalizing first with
  | nil =>
    intro h
    cases h
  | cons v vs ih =>
    intro h
    obtain ⟨-, h⟩ | ⟨-, h⟩ := Assoc.get?_put_cases h
    · cases h
    · exact ih (first + 1) h

/-! ### The operations -/

/-- A write that is let through: the own property is writable, or the key is new. -/
theorem keeps_putProperty (hc : Compact o) {inherited : Option Stored} {u w : Unit}
    (value : Value)
    (hwritable : writableDescriptor ((o.properties.get? key).orElse fun _ => inherited) key = .ok u)
    (hnew : putNewOrExisting o key = .ok w) : ObjectKeeps o (o.putProperty key value) := by
  unfold putNewOrExisting at hnew
  unfold Object.putProperty
  cases hget : o.properties.get? key with
  | some stored =>
    have hopen : o.Open key := .inl (Assoc.hasKey_iff.2 ⟨stored, hget⟩)
    rw [hget] at hwritable
    cases stored with
    | default v =>
      refine keeps_putDefaultProperty value (fun d hd => ?_) hopen fun ho _ => ?_
      · rw [hget] at hd
        cases hd
      · cases key with
        | name w => rfl
        | index i => exact decide_eq_false (Nat.not_le.2 (hc.index_lt ho i v hget))
    | full d =>
      change writableDescriptor (some (.full d)) key = .ok u at hwritable
      unfold writableDescriptor at hwritable
      dsimp only at hwritable
      split at hwritable
      · cases hwritable
      · obtain ⟨hdata, hw⟩ := Bool.and_eq_true_iff.1 (check_eq_ok hwritable)
        have hdefault : (d.withValue value).isDefault = d.isDefault := by
          obtain ⟨content, enumerable, configurable⟩ := d
          cases content <;> rfl
        refine keeps_putPropertyStruct (fun e he hf => ?_) hopen fun hd => ?_
        · rw [hget] at he
          cases he
          rw [hf.2] at hw
          cases hw
        · rw [hdefault, hc.full key d hget] at hd
          cases hd
  | none =>
    have hkey : o.properties.hasKey key = false := by
      unfold Assoc.hasKey
      rw [hget]
      rfl
    rw [hkey, if_neg Bool.false_ne_true] at hnew
    split at hnew
    · cases hnew
    · rename_i hgrows
      refine keeps_putDefaultProperty value (fun d hd => ?_) (.inr (check_eq_ok hnew))
        fun ho hw => ?_
      · rw [hget] at hd
        cases hd
      · cases hb : Object.beyond o.length key with
        | false => rfl
        | true => exact absurd ⟨ho, hw, hb⟩ hgrows

theorem sound_putObject (hok : StoredOk h) (hget : h.objects.get? id = some o)
    (hp : h.putObject id o key value = .ok h') : Sound h h' True := by
  have hc := hok.compact id o hget
  unfold putObject at hp
  split at hp
  · obtain ⟨o', hs, hp⟩ := bind_eq_ok hp
    cases hp
    obtain ⟨hc', hk, -⟩ := keeps_setLength hc hs
    exact sound_store hok hget hc' fun _ => hk
  · obtain ⟨_, hwritable, hp⟩ := bind_eq_ok hp
    obtain ⟨_, hnew, hp⟩ := bind_eq_ok hp
    cases hp
    exact sound_store hok hget (hc.putProperty key value) fun _ =>
      keeps_putProperty hc value hwritable hnew

theorem sound_put (hok : StoredOk h) {key value : Value} (hp : h.put id key value = .ok h') :
    Sound h h' True := by
  obtain ⟨o, hfetch, hp⟩ := bind_eq_ok hp
  have hget := fetchObject_ok hfetch
  split at hp
  · rename_i i ho hk
    split at hp
    · rename_i old hold
      cases hp
      exact sound_storeExisting hok hget ho hold value
    · rename_i hnew
      obtain ⟨_, -, hp⟩ := bind_eq_ok hp
      obtain ⟨_, hlength, hp⟩ := bind_eq_ok hp
      obtain ⟨_, he, hp⟩ := bind_eq_ok hp
      cases hp
      exact sound_storeNewIndex hok hget ho hnew (check_eq_ok he) (check_eq_ok hlength) value
    · exact sound_putObject hok hget hp
  · exact sound_putObject hok hget hp

variable {opts : PropertyOptions}

theorem sound_defineObject (hok : StoredOk h) (hget : h.objects.get? id = some o)
    (hd : h.defineObject id o key value opts = .ok h') :
    Sound h h' (h.FaithfulAt id key (opts.property value)) := by
  unfold defineObject at hd
  split at hd
  · obtain ⟨_, -, hd⟩ := bind_eq_ok hd
    obtain ⟨_, -, hd⟩ := bind_eq_ok hd
    obtain ⟨o', hs, hd⟩ := bind_eq_ok hd
    cases hd
    obtain ⟨hc, hk, hw⟩ := keeps_setLength (hok.compact id o hget) hs
    refine sound_store hok hget ⟨hc.full, hc.index_lt⟩ fun _ => ?_
    refine ⟨hk.kind, hk.fixed, fun _ hnw => ?_, hk.closed⟩
    rw [hw] at hnw
    cases hnw
  · exact sound_storeDescriptor hok hget hd

theorem sound_define (hok : StoredOk h) {key value : Value}
    (hd : h.define id key value opts = .ok h') :
    Sound h h' (h.FaithfulAt id (normalizeKey key) (opts.property value)) := by
  obtain ⟨o, hfetch, hd⟩ := bind_eq_ok hd
  have hget := fetchObject_ok hfetch
  split at hd
  · rename_i i ho hk
    rw [hk]
    split at hd
    · rename_i old hold _
      cases hd
      exact (sound_storeExisting hok hget ho hold value).mono fun _ => trivial
    · rename_i hnew _
      obtain ⟨_, he, hd⟩ := bind_eq_ok hd
      obtain ⟨_, hlength, hd⟩ := bind_eq_ok hd
      cases hd
      exact (sound_storeNewIndex hok hget ho hnew (check_eq_ok he) (check_eq_ok hlength)
        value).mono fun _ => trivial
    · exact sound_defineObject hok hget hd
  · exact sound_defineObject hok hget hd

theorem sound_defineDescriptor (hok : StoredOk h) {key : Value}
    (hd : h.defineDescriptor id key p = .ok h') :
    Sound h h' (h.FaithfulAt id (normalizeKey key) p) := by
  obtain ⟨o, hfetch, hd⟩ := bind_eq_ok hd
  split at hd
  · cases hd
  · exact sound_storeDescriptor hok (fetchObject_ok hfetch) hd

theorem sound_applyPropertyDefinition (hok : StoredOk h) {key : Value}
    (hd : h.applyPropertyDefinition id key p = .ok h') :
    Sound h h' (h.FaithfulAt id (normalizeKey key) p) := by
  unfold applyPropertyDefinition at hd
  split at hd
  · exact sound_defineDescriptor hok hd
  · rename_i hdata
    have hp : (⟨some p.writable, some p.enumerable, some p.configurable⟩ :
        PropertyOptions).property p.value = p := by
      obtain ⟨content, enumerable, configurable⟩ := p
      cases content with
      | data v w => rfl
      | accessor g s => exact absurd rfl hdata
    rw [← hp]
    exact sound_define hok hd

theorem sound_delete (hok : StoredOk h) {key : Value} {deleted : Bool × Heap}
    (hd : h.delete id key = .ok deleted) : Sound h deleted.2 True := by
  obtain ⟨o, hfetch, hd⟩ := bind_eq_ok hd
  have hget := fetchObject_ok hfetch
  have hc := hok.compact id o hget
  split at hd
  · cases hd
    exact ⟨hok, fun _ => .refl h⟩
  · rename_i hconf
    cases hd
    refine sound_store hok hget ?_ fun _ => ⟨rfl, fun k d hk hf => ?_, fun _ hw => ⟨hw, rfl⟩,
      fun he => ⟨he, fun k hk => ((hasKey_delete_iff ..).1 hk).2⟩⟩
    · exact hc.mono rfl fun k stored hk => ⟨Assoc.get?_of_delete hk, fun _ _ _ hi => hi⟩
    · have hne : k ≠ normalizeKey key := by
        rintro rfl
        rw [hk] at hconf
        refine hconf ?_
        show some (!d.configurable) = some true
        rw [hf.1]
        rfl
      exact ⟨d, (Assoc.get?_delete_ne _ hne).trans hk, .refl d⟩

/-- Nothing that `clear_array/1` removes or resets is fixed. -/
def NothingFixed (h : Heap) (id : ℕ) : Prop :=
  ∀ o, h.objects.get? id = some o → o.lengthWritable = true ∧
    ∀ i d, o.properties.get? (.index i) = some (.full d) → ¬ d.Fixed

theorem sound_clearArray (hok : StoredOk h) (hc : h.clearArray id = .ok h') :
    Sound h h' (h.NothingFixed id) := by
  obtain ⟨o, hfetch, hc⟩ := bind_eq_ok hc
  obtain ⟨_, -, hc⟩ := bind_eq_ok hc
  cases hc
  have hget := fetchObject_ok hfetch
  have hkept : ∀ key, o.clearArray.properties.get? key =
      if !Object.isIndex key then o.properties.get? key else none :=
    Assoc.get?_filterKeys _ o.properties
  refine sound_store hok hget ⟨fun key d hd => ?_, fun _ i v hv => ?_⟩ fun hnf =>
    ⟨rfl, fun key d hd hf => ?_, fun _ hw => ?_,
      fun he => ⟨he, fun key hk => ((hasKey_filterKeys_iff ..).1 hk).2⟩⟩
  · rw [hkept] at hd
    split at hd
    · exact (hok.compact id o hget).full key d hd
    · cases hd
  · rw [hkept, if_neg (fun hb => by cases hb)] at hv
    cases hv
  · cases key with
    | index i => exact absurd hf ((hnf o hget).2 i d hd)
    | name v => exact ⟨d, (hkept _).trans hd, .refl d⟩
  · rw [(hnf o hget).1] at hw
    cases hw

/-- The definitions of `sort` ask for a configurable property: a fixed one refuses them. -/
theorem sound_defineFrom (hok : StoredOk h) {id first : ℕ} {values : List Value}
    (hd : h.defineFrom id first values = .ok h') : Sound h h' True := by
  induction values generalizing h first with
  | nil =>
    cases hd
    exact ⟨hok, fun _ => .refl _⟩
  | cons v vs ih =>
    unfold defineFrom at hd
    split at hd
    · rename_i h₁ hdefine
      have hs := sound_define hok hdefine
      have hrest := ih hs.stored hd
      refine ⟨hrest.stored, fun _ => (hs.keeps ?_).trans (hrest.keeps trivial)⟩
      intro o d _ _ _ hconf
      cases hconf
    · cases hd

theorem sound_sort [Value.Platform] (hok : StoredOk h) (hs : h.sort id = .ok h') :
    Sound h h' (h.NothingFixed id) := by
  unfold sort at hs
  split at hs
  · cases hs
  · split at hs
    · cases hs
    · obtain ⟨h₁, hc, hs⟩ := bind_eq_ok hs
      have hclear := sound_clearArray hok hc
      have hdefine := sound_defineFrom hclear.stored hs
      exact ⟨hdefine.stored, fun hn => (hclear.keeps hn).trans (hdefine.keeps trivial)⟩

theorem sound_updateFlags (hok : StoredOk h) {o o' : Object} (hget : h.objects.get? id = some o)
    (hkind : o'.kind = o.kind) (hprops : o'.properties = o.properties)
    (hlength : o'.length = o.length) (hwritable : o'.lengthWritable = o.lengthWritable)
    (hext : o.extensible = false → o'.extensible = false) : Sound h (h.store id o') True := by
  have hc := hok.compact id o hget
  refine sound_store hok hget (hc.mono hkind fun key stored hk => ?_) fun _ =>
    ⟨hkind, fun key d hd _ => ⟨d, hprops ▸ hd, .refl d⟩,
      fun _ hw => ⟨hwritable.trans hw, hlength⟩, fun he => ⟨hext he, fun key hk => hprops ▸ hk⟩⟩
  exact ⟨hprops ▸ hk, fun _ i _ hi => hlength ▸ hi⟩

theorem freeze_ok (hf : h.freeze id = .ok h') :
    ∃ o, h.objects.get? id = some o ∧ h' = h.store id { o with extensible := false } := by
  unfold freeze at hf
  split at hf
  · rename_i h₁ hu
    cases hf
    obtain ⟨o, hfetch, hu⟩ := bind_eq_ok hu
    cases hu
    exact ⟨o, fetchObject_ok hfetch, rfl⟩
  · cases hf

/-! ### Runs -/

variable [Value.Platform] (callable : Value → Bool)

/-- The steps that keep what is fixed: an array is emptied only when nothing in it is fixed, and
a fixed property is redefined faithfully. -/
def Allowed (h : Heap) : Operation → Prop
  | .define id key value opts => h.FaithfulAt id (normalizeKey key) (opts.property value)
  | .defineAccessor id key kind f opts => ∀ o, h.objects.get? id = some o →
      h.FaithfulAt id (normalizeKey key)
        (accessorProperty (o.properties.get? (normalizeKey key)) kind f opts)
  | .defineDescriptor id key p => h.FaithfulAt id (normalizeKey key) p
  | .defineProperty id key fields => ∀ current p, h.ownProperty id key = .ok current →
      descriptorDefinition callable fields current = .ok p → h.FaithfulAt id (normalizeKey key) p
  | .clearArray id | .sort id => h.NothingFixed id
  | .allocate _ _ | .allocateArray _ | .put _ _ _ | .delete _ _ | .setPrototype _ _
  | .freeze _ => True

variable {operation : Operation}

theorem sound_apply (hok : StoredOk h) (ha : h.apply callable operation = .ok h') :
    Sound h h' (Allowed callable h operation) := by
  cases operation with
  | allocate kind opts =>
    cases ha
    exact sound_storeNew hok ⟨fun _ _ hd => (by cases hd), fun _ _ _ hv => (by cases hv)⟩
  | allocateArray values =>
    cases ha
    refine sound_storeNew hok ⟨fun key d hd => ?_, fun _ i v hv => ?_⟩
    · exact absurd hd (not_full_elements values 0 key d)
    · have := ((objectOk_elements values 0 i).1 (Assoc.hasKey_iff.2 ⟨_, hv⟩)).2
      rwa [Nat.zero_add] at this
  | put id key value => exact sound_put hok ha
  | define id key value opts => exact sound_define hok ha
  | defineAccessor id key kind f opts =>
    obtain ⟨o, hfetch, ha⟩ := bind_eq_ok ha
    have hget := fetchObject_ok hfetch
    exact (sound_storeDescriptor hok hget ha).mono fun hall => hall o hget
  | defineDescriptor id key p => exact sound_defineDescriptor hok ha
  | delete id key =>
    change (h.delete id key).map Prod.snd = .ok h' at ha
    cases hdel : h.delete id key with
    | error reason =>
      rw [hdel] at ha
      cases ha
    | ok deleted =>
      rw [hdel] at ha
      cases ha
      exact sound_delete hok hdel
  | setPrototype id prototype =>
    obtain ⟨o, hfetch, ha⟩ := bind_eq_ok ha
    obtain ⟨_, -, ha⟩ := bind_eq_ok ha
    cases ha
    exact sound_updateFlags hok (fetchObject_ok hfetch) rfl rfl rfl rfl fun he => he
  | clearArray id => exact sound_clearArray hok ha
  | freeze id =>
    obtain ⟨o, hget, rfl⟩ := freeze_ok ha
    exact sound_updateFlags hok hget rfl rfl rfl rfl fun _ => rfl
  | sort id => exact sound_sort hok ha
  | defineProperty id key fields =>
    obtain ⟨current, hcurrent, ha⟩ := bind_eq_ok ha
    obtain ⟨p, hp, ha⟩ := bind_eq_ok ha
    exact (sound_applyPropertyDefinition hok ha).mono fun hall => hall current p hcurrent hp

theorem sound_step (hok : StoredOk h) (hs : step callable h operation = some h') :
    Sound h h' (Allowed callable h operation) := by
  unfold step at hs
  cases hr : h.apply callable operation with
  | ok h₁ =>
    rw [hr] at hs
    cases hs
    exact sound_apply callable hok hr
  | error reason =>
    rw [hr] at hs
    have hh : h' = h := by
      cases reason <;> first | cases hs; done | exact (Option.some.inj hs).symm
    rw [hh]
    exact ⟨hok, fun _ => .refl h⟩

theorem storedOk_of_reachable (hr : (machine callable).Reachable h) : StoredOk h := by
  refine hr.invariant (I := StoredOk) (fun s hs => ?_)
    fun s e s' hI he => (sound_step callable hI he).stored
  rw [hs]
  exact ⟨fun _ _ hget => (by cases hget), fun _ _ hget => (by cases hget)⟩

omit [Value.Platform]

end Heap

end QuickBeam.Vm.Runtime
