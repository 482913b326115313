import Switcheck.Server.BandCode
import Switcheck.Server.HpsdrKeyer
import Switcheck.Sync.Shadow

/-!
# The control path of `sdr-transceiver-hpsdr`

`process_ep2` stores the settings of a frame and tells the devices that are written at once. The
band filters are written at the end of a pass of the main loop, where an update flag is set. What
`handler_keyer` and `handler_ep6` go by is stored in `HpsdrKeyer` and `HpsdrEp6`.
-/

namespace Switcheck

open Sync Circuit

open HpsdrKeyer (Frame)

namespace HpsdrControl

inductive Device where
  | pene
  | alex
  | level
  | misc
  | drive
  | codec
  | dac0
  | arduino
  | nucleo
  deriving DecidableEq

/-- What `main` finds and what the compiler is given: the devices that answer, the serial port, and
the roundings of floating-point arithmetic. -/
structure Board where
  i2c : Device → Bool
  uart : Bool
  thetis : Bool
  /-- `(uint32_t)floor(freq / 125.0e6 * (1 << 30) + 0.5)`. -/
  phase : BitVec 32 → BitVec 32
  /-- `(uint32_t)floor(freq / 48.0e3 * (1 << 30) + 0.5)`. -/
  dacPhase : BitVec 32 → BitVec 32
  /-- `(int16_t)floor(data * 125.92 + 0.5)`. -/
  level : BitVec 16 → BitVec 16
  logTableLookup : BitVec 16 → BitVec 8

inductive Effect where
  | i2c (device : Device) (bytes : List (BitVec 8))
  | alex (word : BitVec 32)
  | uart (bytes : List (BitVec 8))
  | rxFreq (k : Fin 3) (value : BitVec 32)
  | txFreq (value : BitVec 32)
  | dacFreq (value : BitVec 32)
  | rxRate (value : BitVec 16)
  | txLevel (value : BitVec 16)
  | dacLevel (value : BitVec 16)
  | gpioOut (value : BitVec 8)
  | loRst (value : BitVec 8)
  deriving DecidableEq

/-- What the band filters are told: the settings, the words written last and the update flags. -/
structure Filters where
  freqData : Fin 3 → BitVec 32
  alexData0 : BitVec 16
  alexData1 : BitVec 16
  alexDataRx : BitVec 16
  alexDataTx : BitVec 16
  alexUpdate : Bool
  miscData0 : BitVec 16
  miscData1 : BitVec 16
  miscData2 : BitVec 16
  i2cMiscData : BitVec 16
  miscUpdate : Bool
  nucleoData0 : BitVec 32
  nucleoData1 : BitVec 32
  nucleoData2 : BitVec 32
  nucleoData3 : BitVec 32
  i2cNucleoData : BitVec 32 × BitVec 32
  nucleoUpdate : Bool

/-- What the devices that are written at once have been written last. -/
structure Latched where
  i2cPeneData : BitVec 16
  i2cAlexData : BitVec 16
  i2cLevelData : BitVec 16
  i2cDriveData : BitVec 16
  i2cDac0Data : BitVec 16
  i2cBoostData : BitVec 8
  i2cArdFrx1Data : BitVec 16
  i2cArdFrx2Data : BitVec 16
  i2cArdFtxData : BitVec 16
  i2cArdOcantData : BitVec 32
  i2cArdTxattData : BitVec 32
  i2cArdRxattData : BitVec 16
  icomBandData : BitVec 8

end HpsdrControl

open HpsdrControl in
structure HpsdrControl where
  filters : Filters
  latched : Latched
  rxSyncData : BitVec 16
  txEerData : BitVec 8
  rxAttData : BitVec 8
  rxFreq : Fin 3 → BitVec 32
  loRst : BitVec 8

namespace HpsdrControl

theorem neZero_five : @NeZero Nat Zero.ofOfNat0 5 := ⟨by decide⟩

theorem neZero_three : @NeZero Nat Zero.ofOfNat0 3 := ⟨by decide⟩

attribute [local instance] neZero_five neZero_three

/-- A part of the program: what it leaves in the variables, and what it writes. -/
abbrev Act := HpsdrControl → HpsdrControl × List Effect

def seq : List Act → Act
  | [], s => (s, [])
  | a :: rest, s => ((seq rest (a s).1).1, (a s).2 ++ (seq rest (a s).1).2)

def when (condition : Bool) (a : Act) : Act := fun s => if condition then a s else (s, [])

/-- A part that goes by what it finds in the variables. -/
def finds (a : HpsdrControl → Act) : Act := fun s => a s s

def store (f : HpsdrControl → HpsdrControl) : Act := fun s => (f s, [])

def write (effect : Effect) : Act := fun s => (s, [effect])

/-- The part leaves what `view` sees of the variables, and writes nothing that `shows` sees. -/
def Leaves {γ β : Type} (view : HpsdrControl → γ) (shows : Effect → Option β) (a : Act) : Prop :=
  ∀ s, view (a s).1 = view s ∧ (a s).2.filterMap shows = []

section

variable {γ β : Type} {view : HpsdrControl → γ} {shows : Effect → Option β} {a : Act}
  {as : List Act}

theorem leaves_nil : Leaves view shows (seq []) := fun _ => ⟨rfl, rfl⟩

theorem leaves_cons (first : Leaves view shows a) (rest : Leaves view shows (seq as)) :
    Leaves view shows (seq (a :: as)) := by
  intro s
  obtain ⟨same, none⟩ := first s
  obtain ⟨same', none'⟩ := rest (a s).1
  refine ⟨same'.trans same, ?_⟩
  rw [seq, List.filterMap_append, none, none', List.append_nil]

theorem leaves_when (condition : Bool) (leaves : Leaves view shows a) :
    Leaves view shows (when condition a) := by
  intro s
  cases condition
  · exact ⟨rfl, rfl⟩
  · exact leaves s

theorem leaves_finds {a : HpsdrControl → Act} (leaves : ∀ s, Leaves view shows (a s)) :
    Leaves view shows (finds a) := fun s => leaves s s

theorem leaves_store {f : HpsdrControl → HpsdrControl} (same : ∀ s, view (f s) = view s) :
    Leaves view shows (store f) := fun s => ⟨same s, rfl⟩

theorem leaves_write {effect : Effect} (none : shows effect = none) :
    Leaves view shows (write effect) := fun _ => ⟨rfl, by simp [write, none]⟩

end

/-! ### Words on the I2C bus -/

def addrData8 (addr data : BitVec 8) : List (BitVec 8) := [addr, data]

def addrData16 (addr : BitVec 8) (data : BitVec 16) : List (BitVec 8) :=
  [addr, data.setWidth 8, (data >>> 8).setWidth 8]

def addrData24 (addr : BitVec 8) (data : BitVec 32) : List (BitVec 8) :=
  [addr, data.setWidth 8, (data >>> 8).setWidth 8, (data >>> 16).setWidth 8]

def data16 (data : BitVec 16) : List (BitVec 8) := [(data >>> 8).setWidth 8, data.setWidth 8]

def data40 (low high : BitVec 32) : List (BitVec 8) :=
  [low.setWidth 8, (low >>> 8).setWidth 8, (low >>> 16).setWidth 8, (low >>> 24).setWidth 8,
    high.setWidth 8]

/-! ### The band filters -/

def flag {w : Nat} (condition : Bool) : BitVec w := if condition then 1 else 0

section

variable (freqData : Fin 3 → BitVec 32) (alexData0 alexData1 : BitVec 16)

def manual : Bool := alexData1.getLsbD 15

def maxFreq : BitVec 32 := if freqData 1 > freqData 2 then freqData 1 else freqData 2

def minFreq : BitVec 32 := if freqData 1 < freqData 2 then freqData 1 else freqData 2

def preamp : BitVec 16 :=
  if manual alexData1 then (alexData1 >>> 6) &&& 0x01 else flag (maxFreq freqData > 50000000)

def hpf : BitVec 16 :=
  let freq := minFreq freqData
  if preamp freqData alexData1 ≠ 0 then 0
  else if manual alexData1 then alexData1 &&& 0x3f
  else if freq < 1416000 then 0x20
  else if freq < 6500000 then 0x10
  else if freq < 9500000 then 0x08
  else if freq < 13000000 then 0x04
  else if freq < 20000000 then 0x01
  else 0x02

def alexRx : BitVec 16 :=
  let hpf := hpf freqData alexData1
  let ant := (alexData0 >>> 5) &&& 0x03
  (alexData0 &&& 0x01) <<< 15 ||| ((alexData0 >>> 1) &&& 0x01) <<< 14 |||
    ((alexData0 >>> 2) &&& 0x01) <<< 13 ||| ((hpf >>> 5) &&& 0x01) <<< 12 |||
    ((alexData0 >>> 7) &&& 0x01) <<< 11 ||| flag (ant == 0x01) <<< 10 |||
    flag (ant == 0x02) <<< 9 ||| flag (ant == 0x03) <<< 8 ||| ((hpf >>> 2) &&& 0x07) <<< 4 |||
    preamp freqData alexData1 <<< 3 ||| (hpf &&& 0x03) <<< 1 ||| 1

def lpf : BitVec 16 :=
  let freq := if alexData0 &&& 0x01 ≠ 0 then freqData 0 else maxFreq freqData
  if manual alexData1 then (alexData1 >>> 8) &&& 0x7f
  else if freq > 32000000 then 0x10
  else if freq > 22000000 then 0x20
  else if freq > 15000000 then 0x40
  else if freq > 8000000 then 0x01
  else if freq > 4500000 then 0x02
  else if freq > 2400000 then 0x04
  else 0x08

def alexTx : BitVec 16 :=
  let lpf := lpf freqData alexData0 alexData1
  let ptt := alexData0 &&& 0x01
  let ant := (alexData0 >>> 8) &&& 0x03
  ((lpf >>> 4) &&& 0x07) <<< 13 ||| ptt <<< 12 ||| (~~~(alexData1 >>> 7) &&& ptt) <<< 11 |||
    flag (ant == 0x02) <<< 10 ||| flag (ant == 0x01) <<< 9 ||| flag (ant == 0x00) <<< 8 |||
    (lpf &&& 0x0f) <<< 4 ||| 1#16 <<< 3

end

namespace Filters

variable (f : Filters)

def rxWord : BitVec 16 := alexRx f.freqData f.alexData0 f.alexData1

def txWord : BitVec 16 := alexTx f.freqData f.alexData0 f.alexData1

def miscWord : BitVec 16 := BandCode.miscData f.freqData f.miscData0 f.miscData1 f.miscData2

def nucleoWords : BitVec 32 × BitVec 32 :=
  BandCode.nucleoData f.freqData f.nucleoData0 f.nucleoData1 f.nucleoData2 f.nucleoData3

end Filters

def alexWrite (board : Board) : Act := fun s =>
  let f := s.filters
  if board.i2c .codec then (s, [])
  else
    ({ s with filters := { f with alexDataRx := f.rxWord, alexDataTx := f.txWord } },
      (refresh f.alexDataRx f.rxWord).map (fun data => .alex (0x10000 ||| data.setWidth 32)) ++
        (refresh f.alexDataTx f.txWord).map (fun data => .alex (0x20000 ||| data.setWidth 32)))

def miscWrite : Act := fun s =>
  ({ s with filters := { s.filters with i2cMiscData := s.filters.miscWord } },
    (refresh s.filters.i2cMiscData s.filters.miscWord).map fun data =>
      .i2c .misc (addrData16 0x02 data))

def nucleoWrite : Act := fun s =>
  ({ s with filters := { s.filters with i2cNucleoData := s.filters.nucleoWords } },
    (refresh s.filters.i2cNucleoData s.filters.nucleoWords).map fun data =>
      .i2c .nucleo (data40 data.1 data.2))

/-! ### The frames of `process_ep2` -/

section

variable (board : Board) (frame : Frame)

/-- A byte of the frame, promoted. -/
def byte (k : Fin 5) : BitVec 16 := (frame k).setWidth 16

/-- `ntohl(*(uint32_t *)(frame + 1))`. -/
def freq : BitVec 32 :=
  frame 1 ++ frame 2 ++ frame 3 ++ frame 4

def freqMax : BitVec 32 := 61440000

/-- The local oscillators of the receivers are cleared and started again. -/
def resetLos : Act := fun s =>
  ({ s with loRst := s.loRst &&& ~~~3#8 ||| 3#8 },
    [.loRst (s.loRst &&& ~~~3#8), .loRst (s.loRst &&& ~~~3#8 ||| 3#8)])

def setRxFreq (k : Fin 3) (value : BitVec 32) : Act := fun s =>
  ({ s with rxFreq := Function.update s.rxFreq k value }, [.rxFreq k value])

/-- `rx_freq[1] = rx_freq[0]`. -/
def copyRxFreq : Act := fun s => setRxFreq 1 (s.rxFreq 0) s

def setSync : Act := finds fun s =>
  let data := (byte frame 4 >>> 7) &&& 1
  when (s.rxSyncData != data) <| seq [store fun s => { s with rxSyncData := data },
    when (data != 0) <| seq [copyRxFreq, resetLos]]

def setEer : Act := store fun s => { s with txEerData := frame 2 &&& 1 }

def setOutputs (gpioIn : BitVec 8) : Act := finds fun s =>
  let ptt := frame 0 &&& 0x01
  let att := frame 3 &&& 0x03
  let preamp : BitVec 8 :=
    if ptt ||| (gpioIn &&& 1) ≠ 0 then 0
    else (frame 3 &&& 0x04) >>> 2 ||| flag (s.rxAttData == 0)
  write (.gpioOut ((frame 2 &&& 0x1e) <<< 3 ||| att <<< 2 ||| preamp <<< 1 ||| ptt))

def setRxRate : Act :=
  write (.rxRate (match (frame 1 &&& 3).toNat with
    | 0 => 1000
    | 1 => 500
    | 2 => 250
    | _ => 125))

def setAlexData0 (data : BitVec 16) : Act := finds fun s =>
  when (s.filters.alexData0 != data) <| store fun s =>
    { s with filters := { s.filters with alexData0 := data, alexUpdate := true } }

def setAlexData1 (data : BitVec 16) : Act := finds fun s =>
  when (s.filters.alexData1 != data) <| store fun s =>
    { s with filters := { s.filters with alexData1 := data, alexUpdate := true } }

def setMiscData0 (data : BitVec 16) : Act := finds fun s =>
  when (s.filters.miscData0 != data) <| store fun s =>
    { s with filters := { s.filters with miscData0 := data, miscUpdate := true } }

def setMiscData1 (data : BitVec 16) : Act := finds fun s =>
  when (s.filters.miscData1 != data) <| store fun s =>
    { s with filters := { s.filters with miscData1 := data, miscUpdate := true } }

def setMiscData2 (data : BitVec 16) : Act := finds fun s =>
  when (s.filters.miscData2 != data) <| store fun s =>
    { s with filters := { s.filters with miscData2 := data, miscUpdate := true } }

def setNucleoData0 (data : BitVec 16) : Act := finds fun s =>
  when (s.filters.nucleoData0 != data.setWidth 32) <| store fun s =>
    { s with filters := { s.filters with
      nucleoData0 := data.setWidth 32, nucleoUpdate := true } }

def setNucleoData1 (data : BitVec 16) : Act := finds fun s =>
  when (s.filters.nucleoData1 != data.setWidth 32) <| store fun s =>
    { s with filters := { s.filters with
      nucleoData1 := data.setWidth 32, nucleoUpdate := true } }

def setNucleoData2 (data : BitVec 16) : Act := finds fun s =>
  when (s.filters.nucleoData2 != data.setWidth 32) <| store fun s =>
    { s with filters := { s.filters with
      nucleoData2 := data.setWidth 32, nucleoUpdate := true } }

def setNucleoData3 (data : BitVec 16) : Act := finds fun s =>
  when (s.filters.nucleoData3 != data.setWidth 32) <| store fun s =>
    { s with filters := { s.filters with
      nucleoData3 := data.setWidth 32, nucleoUpdate := true } }

/-- A device that is written at once: `data` where it differs from what was written last. -/
def latch {w : Nat} (device : Device) (get : Latched → BitVec w) (set : Latched → BitVec w → Latched)
    (bytes : BitVec w → List (BitVec 8)) (data : BitVec w) : Act := finds fun s =>
  when (get s.latched != data) <| seq
    [store fun s => { s with latched := set s.latched data }, write (.i2c device (bytes data))]

def configurePenelope : Act :=
  latch .pene (·.i2cPeneData) (fun l data => { l with i2cPeneData := data }) (addrData16 0x02)
    ((byte frame 3 &&& 0x1c) <<< 11 ||| (byte frame 4 &&& 0x03) <<< 11 |||
      (byte frame 3 &&& 0x60) <<< 4 ||| (byte frame 3 &&& 0x03) <<< 7 ||| byte frame 2 >>> 1)

def nucleoPins : BitVec 16 :=
  let tx := byte frame 4 &&& 0x03
  let rx := (byte frame 3 >>> 5) &&& 0x03
  flag (tx == 2) <<< 15 ||| flag (tx == 1) <<< 14 ||| flag (tx == 0) <<< 13 |||
    flag (rx == 3) <<< 12 ||| flag (rx == 2) <<< 11 ||| flag (rx == 1) <<< 10 |||
    (byte frame 3 &&& 0x18) <<< 5 ||| (byte frame 2 &&& 0xfe) ||| (byte frame 0 &&& 0x01)

/-- `4065 - (uint32_t)data * 4095 / 61`, cut to sixteen bits. -/
def dac0Data (rxAttData : BitVec 8) : BitVec 16 :=
  let data := rxAttData.setWidth 16 + 10 * (byte frame 3 &&& 0x03)
  (4065 - data.setWidth 32 * 4095 / 61 : BitVec 32).setWidth 16

def configureDac0 : Act := finds fun s =>
  latch .dac0 (·.i2cDac0Data) (fun l data => { l with i2cDac0Data := data }) data16
    (dac0Data frame s.rxAttData)

/-- The field 0RRR00TT0XXXXXXX0YYYYYYY of the Arduino: antennas and open collector outputs. -/
def ocant (old : BitVec 32) : BitVec 32 :=
  let rx := (frame 3 &&& 0x60) >>> 5
  if frame 0 &&& 0x01 ≠ 0 then
    (old &&& 0x00fc7f00) ||| (frame 2 >>> 1).setWidth 32 |||
      ((frame 4).setWidth 32 &&& 0x03) <<< 16
  else
    (old &&& 0x0003007f) ||| (frame 2).setWidth 32 <<< 7 |||
      if rx = 0 then ((frame 4).setWidth 32 &&& 0x03) <<< 20
      else (((rx + 2).setWidth 32) &&& 0x07) <<< 20

def configureAntennas : Act := finds fun s =>
  latch .arduino (·.i2cArdOcantData) (fun l data => { l with i2cArdOcantData := data })
    (addrData24 0x4) (ocant frame s.latched.i2cArdOcantData)

def general (gpioIn : BitVec 8) : Act := seq
  [setSync frame, setEer frame, setOutputs frame gpioIn, setRxRate frame,
    setAlexData0 ((byte frame 4 &&& 0x03) <<< 8 ||| (byte frame 3 &&& 0xe0) |||
      (byte frame 3 &&& 0x03) <<< 1 ||| (byte frame 0 &&& 0x01)),
    when (board.i2c .pene) (configurePenelope frame),
    when (board.i2c .nucleo) (setNucleoData0 (nucleoPins frame)),
    when (board.i2c .dac0) (configureDac0 frame),
    when (board.i2c .arduino) (configureAntennas frame)]

def icomBand (freq : BitVec 32) : BitVec 8 :=
  if freq < 2000000 then 0x01
  else if freq < 4000000 then 0x03
  else if freq < 8000000 then 0x07
  else if freq < 11000000 then 0x10
  else if freq < 15000000 then 0x14
  else if freq < 20000000 then 0x18
  else if freq < 22000000 then 0x21
  else if freq < 26000000 then 0x24
  else 0x28

def icomWrite : Act := finds fun s =>
  let band := icomBand (s.filters.freqData 0)
  let part : BitVec 8 := if band = 0x01 then 0x80 else if band = 0x03 then 0x50 else 0x00
  when (s.latched.icomBandData != band) <| seq
    [store fun s => { s with latched := { s.latched with icomBandData := band } },
      when board.uart <|
        write (.uart [0xfe, 0xfe, 0x04, 0xe0, 0x05, 0x00, 0x00, part, band, 0xfd])]

/-- The flags of the filters go up: those of the boards only where they answer. -/
def raiseFlags : Act := store fun s =>
  { s with filters := { s.filters with
      alexUpdate := true
      miscUpdate := s.filters.miscUpdate || board.i2c .misc
      nucleoUpdate := s.filters.nucleoUpdate || board.i2c .nucleo } }

/-- `freq_data[k]` where it changes, with what is done about it before the flags go up. -/
def setFreqData (k : Fin 3) (value : BitVec 32) (first onward : Act) : Act := finds fun s =>
  when (s.filters.freqData k != value) <| seq
    [store fun s => { s with filters := { s.filters with
        freqData := Function.update s.filters.freqData k value } },
      first, raiseFlags board, when (board.i2c .arduino) onward]

/-- `freq / 1000`, cut to sixteen bits. -/
def kilohertz : BitVec 16 := (freq frame / 1000).setWidth 16

/-- A frequency that the radio cannot take is passed over. -/
def inRange : Bool := freq frame ≤ freqMax

def txFrequency : Act := when (inRange frame) <| seq
  [write (.txFreq (board.phase (freq frame))),
    setFreqData board 0 (freq frame) (icomWrite board) <|
      latch .arduino (·.i2cArdFtxData) (fun l data => { l with i2cArdFtxData := data })
        (addrData16 0x03) (kilohertz frame)]

def rxFrequency1 : Act := when (inRange frame) <| seq
  [setRxFreq 0 (board.phase (freq frame)),
    finds fun s => when (s.rxSyncData != 0) copyRxFreq,
    setFreqData board 1 (freq frame) (finds fun s => when (s.rxSyncData != 0) resetLos) <|
      latch .arduino (·.i2cArdFrx1Data) (fun l data => { l with i2cArdFrx1Data := data })
        (addrData16 0x01) (kilohertz frame)]

/-- The frequency that stands for the second receiver with the filters. -/
def rxFrequencyData2 : Act :=
  setFreqData board 2 (freq frame) (seq []) <|
    latch .arduino (·.i2cArdFrx2Data) (fun l data => { l with i2cArdFrx2Data := data })
      (addrData16 0x02) (kilohertz frame)

def rxFrequency2 : Act := finds fun s => when (s.rxSyncData == 0 && inRange frame) <| seq
  [setRxFreq 1 (board.phase (freq frame)), when (!board.thetis) (rxFrequencyData2 board frame)]

def rxFrequency3 : Act := when (inRange frame) <| seq
  [setRxFreq 2 (board.phase (freq frame)), when board.thetis (rxFrequencyData2 board frame)]

/-- The drive level goes to the first of the devices that answers. -/
def configureLevel : Act :=
  let data := byte frame 1
  if board.i2c .level then
    latch .level (·.i2cLevelData) (fun l data => { l with i2cLevelData := data })
      (addrData16 0x02) data
  else if board.i2c .drive then
    latch .drive (·.i2cDriveData) (fun l data => { l with i2cDriveData := data })
      (fun data => addrData16 0xa9 (data <<< 8 ||| data)) data
  else if board.i2c .arduino then finds fun s =>
    latch .arduino (·.i2cArdTxattData) (fun l data => { l with i2cArdTxattData := data })
      (addrData24 0x05) ((s.latched.i2cArdTxattData &&& 0x00001f00) |||
        (board.logTableLookup data).setWidth 32 ||| ((frame 3).setWidth 32 &&& 0xc0) <<< 10)
  else write (.txLevel (board.level data))

def configureBoost : Act :=
  latch .codec (·.i2cBoostData) (fun l data => { l with i2cBoostData := data })
    (fun boost => addrData8 0x08 (0x14 + boost)) (frame 2 &&& 0x01)

def filterSettings : Act := seq
  [setAlexData1 ((byte frame 2 &&& 0x40) <<< 9 ||| byte frame 4 <<< 8 ||| byte frame 3),
    when (board.i2c .misc) (setMiscData2
      ((byte frame 3 &&& 0x80) >>> 6 ||| (byte frame 3 &&& 0x20) >>> 5)),
    when (board.i2c .nucleo) (setNucleoData1 ((byte frame 3 &&& 0xe0) >>> 5)),
    when (board.i2c .alex) (latch .alex (·.i2cAlexData)
      (fun l data => { l with i2cAlexData := data }) (addrData16 0x02)
      (byte frame 4 <<< 8 ||| byte frame 3)),
    configureLevel board frame,
    when (board.i2c .codec) (configureBoost frame)]

/-- The field 000RRRRR000TTTTT of the Arduino. -/
def configureRxAttenuation (data : BitVec 16 → BitVec 16) : Act := finds fun s =>
  latch .arduino (·.i2cArdRxattData) (fun l data => { l with i2cArdRxattData := data })
    (addrData16 0x06) (data s.latched.i2cArdRxattData)

def rx1Attenuation : Act := seq
  [store fun s => { s with rxAttData := frame 4 &&& 0x1f },
    when (board.i2c .misc) (setMiscData0 (byte frame 4 &&& 0x1f)),
    when (board.i2c .nucleo) (setNucleoData2 (byte frame 4 &&& 0x1f)),
    when (board.i2c .arduino) (configureRxAttenuation fun old =>
      (old &&& 0x1f00) ||| (byte frame 4 &&& 0x1f))]

def rx2Attenuation : Act := seq
  [when (board.i2c .misc) (setMiscData1 (byte frame 1 &&& 0x1f)),
    when (board.i2c .nucleo) (setNucleoData3 (byte frame 1 &&& 0x1f)),
    when (board.i2c .arduino) (configureRxAttenuation fun old =>
      (old &&& 0x1f) ||| (byte frame 1 &&& 0x1f) <<< 8)]

def txRxAttenuation : Act := finds fun s =>
  latch .arduino (·.i2cArdTxattData) (fun l data => { l with i2cArdTxattData := data })
    (addrData24 0x05) ((s.latched.i2cArdTxattData &&& 0x0003003f) |||
      ((frame 3).setWidth 32 &&& 0x1f) <<< 8)

def processEp2 (gpioIn : BitVec 8) : Act :=
  match (frame 0).toNat with
  | 0 | 1 => general board frame gpioIn
  | 2 | 3 => txFrequency board frame
  | 4 | 5 => rxFrequency1 board frame
  | 6 | 7 => rxFrequency2 board frame
  | 8 | 9 => rxFrequency3 board frame
  | 18 | 19 => filterSettings board frame
  | 20 | 21 => rx1Attenuation board frame
  | 22 | 23 => rx2Attenuation board frame
  | 28 | 29 => when (board.i2c .arduino) (txRxAttenuation frame)
  | 30 | 31 => when (board.i2c .codec) (write (.dacLevel (byte frame 2 * 64)))
  | 32 | 33 => when (board.i2c .codec)
      (write (.dacFreq (board.dacPhase ((frame 3).setWidth 32 <<< 4 ||| (frame 4).setWidth 32))))
  | _ => seq []

/-! ### The main loop -/

/-- What a start command of the client does before the thread is made. -/
def begin : Act := seq [store fun s => { s with rxSyncData := 0 }, resetLos]

def alexPass : Act := finds fun s => when s.filters.alexUpdate <| seq
  [store fun s => { s with filters := { s.filters with alexUpdate := false } }, alexWrite board]

def miscPass : Act := finds fun s => when s.filters.miscUpdate <| seq
  [store fun s => { s with filters := { s.filters with miscUpdate := false } }, miscWrite]

def nucleoPass : Act := finds fun s => when s.filters.nucleoUpdate <| seq
  [store fun s => { s with filters := { s.filters with nucleoUpdate := false } }, nucleoWrite]

/-- The end of a pass. `cw_ptt` is read twice, with `handler_keyer` running on between. -/
def endPass (alexPtt nucleoPtt : Bool) : Act := seq
  [finds fun s => setAlexData0 (s.filters.alexData0 ||| flag alexPtt),
    alexPass board, miscPass,
    finds fun s => setNucleoData0 (s.filters.nucleoData0.setWidth 16 ||| flag nucleoPtt),
    nucleoPass]

end

/-- A step of the main loop: a frame with what it finds on the pins, a start command, or the end of
a pass. -/
inductive Move where
  | frame (frame : Frame) (gpioIn : BitVec 8)
  | start
  | endPass (alexPtt nucleoPtt : Bool)

def act (board : Board) : Move → Act
  | .frame frame gpioIn => processEp2 board frame gpioIn
  | .start => begin
  | .endPass alexPtt nucleoPtt => endPass board alexPtt nucleoPtt

/-- Where the program starts, with the phase increment that `main` sets. -/
def initial (rxFreq : BitVec 32) (loRst : BitVec 8) : HpsdrControl where
  filters :=
    { freqData := fun _ => 0
      alexData0 := 0, alexData1 := 0, alexDataRx := 0, alexDataTx := 0, alexUpdate := false
      miscData0 := 0, miscData1 := 0, miscData2 := 0, i2cMiscData := 0, miscUpdate := false
      nucleoData0 := 0, nucleoData1 := 0, nucleoData2 := 0, nucleoData3 := 0
      i2cNucleoData := (0, 0), nucleoUpdate := false }
  latched :=
    { i2cPeneData := 0, i2cAlexData := 0, i2cLevelData := 0, i2cDriveData := 0
      i2cDac0Data := 0xfff, i2cBoostData := 0, i2cArdFrx1Data := 0, i2cArdFrx2Data := 0
      i2cArdFtxData := 0, i2cArdOcantData := 0, i2cArdTxattData := 0, i2cArdRxattData := 0
      icomBandData := 0 }
  rxSyncData := 0
  txEerData := 0
  rxAttData := 0
  rxFreq := fun _ => rxFreq
  loRst := loRst

def circuit (board : Board) : Circuit HpsdrControl Move where
  Reset s := ∃ rxFreq loRst, s = initial rxFreq loRst
  tick s move := (act board move s).1

abbrev Tick := Clock HpsdrControl Move

def effects (board : Board) (c : Tick) : List Effect := (act board c.pins c.regs).2

end HpsdrControl

end Switcheck
