import Vigil.Text.Ranges

/-!
# Vigil.Text.Hidden — characters that do not show by themselves

Runs of code points that have no visible form of their own: controls, format
characters, separators other than the space, marks that extend the character
before them, fillers, and everything unassigned or private. `Text.quote`
writes these by number. The two half-width sound marks of Japanese have a
width and a form of their own and are not among them.
-/

namespace Vigil.Text

/-- Below `U+1000`. -/
def hiddenBasic : List Nat := runs "
  ExBimbWwEiicgehbbbubIqhGkbBmcBycdBubbbcbcbjBbegrklbbBuvqbDxibgccbeBgcbbBeBdDllboBrjhdyebjbdbhpbz
  fbblfBgqBqCfCdbbbeiebdhkcBdbcbicccwbhbbdedbbcgcccbbncbdeyfbbgeccwbhbcbcbcedyebbhkcdbbmbbjbdbwbhb
  cbfdeibbcdbpcemhbicbicccwbhbcbfdbcbgcccpcbdeslbbgddbedcbbbcdcdddmfbbcddbddbvvgdbibdbxbqdbdetdbcc
  cekhkblbdbxbkbfdccbbcxdbcekbdolbdbBpcbbcfdbdbcedbkeBaccbsdybjbbchjcghhkcdmBwbcliinBlcbbbfbybbbkb
  cjbcfbbjkceBgycBbbbbbbobBksbfbcfBxibgbnBl"

/-- From `U+1000` to `U+FFFF`. -/
def hiddenMiddle : List Nat := runs "
  GDhebgbccczcedqenbccgbpbBobbfbcFncIybechbbbecBpbecBhbechbbbecpbCfbecCpfBddBagDicgcYqbBcdDlhsntdc
  jsonbdpCacbhibcljdkgkglfkgDlhfcBibbfCskBfeecdecbghbdBqcflBseBagldCfccdCebbjbbcignkgkgoDiBwkedib
  BdjmcBgecgCebbcdbbnBwicfpdCkfBrcllbnbhebgbdcbfHkCmKscgcBmcgcibbbbbbbBfcCbbpbocgbtcdbjryiBvrccBbb
  ndBiCkFkeZqwlvCRscOndcfBtbbfbcCehcpxjhbhbhbhbhbhbhbhBhDqBiBabDlmIgBaqbBpgqbDieDxfBrbBzbBqbDijBwb
  BRIrdCdjNkuBvebkBgcDccgiInurbdbebzcfekgCeiCqkmynbBmizlbmBegBwbcecccbnblehbzbBpgcccldbibbckcBgbBz
  bbdccfcbbbyrcilgcgcgjhbhbCieEnbcbedkgQNsmxeBxMNcOccEcBmhmffbbybfbbbcbcbZaBgqqkwBjbtbeefbFfeGdbBe
  dgcgcgcddhbhncc"

/-- From `U+10000` to `U+160FF`. -/
def hiddenScripts : List Nat := runs "
  DSZcbBabtbcbpcoBiEtfdeBtdDkbndbBvBtFbBddBxqBbeBkjBefBmkBebBleoBqGcckgBkeBkeBoiCalmbpbhbcblbpbhbc
  dCamLzjwkiygbBqbjCrgcbbBsbcdbcxbCuijBwtbcfBhdBbfBbBmCeeucBvpebdbBdkjhjhCmBgBlgmjCcdBdcBbfBahemh
  DcCvCdBznBzhBqmkgBmiyicIaBfbBqdbccqgijBnBoiwljwseeBmBcuxjbbCcpheBebccbmBxecccbeozhkjBkfbjsiBjbdl
  CajbbiecbqbulsbBcdcegbcClhbbbebpblgBvbdnkicbicccwbhbcbfdbbbbeccccdbmhBckbbcbbBmbbbcpbbcdbbdbcBn
  CeicdbbvbbbdBeBwbcgbbcbbcbceikGkBvbcgecbcBbBkBzicbbcelkgntBrbbbcicgkguBcBbdbbcebjxHdBvjbcbDwDfmi
  cbcibcbybfbcgebdjkCsicBqiebeBbbkBogceijbgcdBunbcjnCvhkDjbdbbbDkBiokgjbBmobbgkBddBgzbhbcbCxhbcbBm
  vbjkggbcbBlecbbbbhkgBsekJmtcejpbBkicdxDibpBynBJnDyEhbflHoDXkDvnBPgrgzFXrfWlKDd"

/-- From `U+16100` on. -/
def hiddenUpper : List Nat := runs "
  FDSwmddkCOsVxhBfbkeDdbkgBehbkBwhpkkbhbvftQqCgHqDnfzczBsCxfCelnCmeofjKXyBpBgDtElMWrebhbcbLfpbBddc
  boeiPgDKuEdfndjhkcbcbFVkJtdQugxprDrEmCiJmkBncCifdwchBeeCjvCodbEsumumDjjzFfDhbCtbccbcccebmbbbhbCn
  becibhbBcbebfbbdhbNccLgcVqCdeByibobhBRwBfggKbCkFqBtkhckecMiBesBsekfbRwBcekIgBeclebHkBfbdbcbhcfjc
  IqhbebcbpbHpcjBwCqhbekecBEfCqCyCjHmebBbbcbbcbbkbebbbbgbebbbbbbdbcbbcbbbbbbbbbbcbbcebhbebebbbkbrf
  dbfbrCacKkBseDwmpcpbpbBlkGsCeBdnBsejhcogFyBLxdrdndIkgmebpmeCeikgBoiBecmecojBnNgiocndldCfbbeqcmek
  hFrbDzBNpCLFcBgGMocIOccLBlpXyDQwUwCFyHHzfMOoBZLJy"

/-- Whether a character has no visible form of its own. -/
def isHidden (c : Char) : Bool :=
  let n := c.toNat
  if n < 0x7f then n < 0x20
  else if n < 0x1000 then inRuns hiddenBasic n
  else if n < 0x10000 then inRuns hiddenMiddle n
  else if n < 0x16100 then inRuns hiddenScripts n
  else inRuns hiddenUpper n

end Vigil.Text
