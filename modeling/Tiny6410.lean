import Tiny6410.Lib.Memory
import Tiny6410.Lib.Arm
import Tiny6410.Lib.Loop
import Tiny6410.Lib.Field
import Tiny6410.Nand.Program
import Tiny6410.Nand.Select
import Tiny6410.Nand.Ranges
import Tiny6410.Boot.Layout
import Tiny6410.Boot.EarlyIrq
import Tiny6410.Mmu.Vectors
import Tiny6410.Interrupt.Handlers
import Tiny6410.Interrupt.Latch
import Tiny6410.Interrupt.LedRace
import Tiny6410.Interrupt.UartRace
import Tiny6410.Interrupt.TimerInit
import Tiny6410.Interrupt.Watchdog
import Tiny6410.Sdram.Init
import Tiny6410.Stdio.Buffers
import Tiny6410.Uart.SendData32
import Tiny6410.Uart.BaudRate
import Tiny6410.Linux.ButtonsOpen
import Tiny6410.Linux.CharDev
import Tiny6410.Linux.Leds
import Tiny6410.Linux.Registration
import Tiny6410.Linux.ButtonsRead
import Tiny6410.Linux.ButtonsOpening
import Tiny6410.Linux.ReadContract
import Tiny6410.Linux.CharDevOpen
import Tiny6410.Linux.Echo
import Tiny6410.Linux.SetMac
import Tiny6410.Div.DoDiv
import Tiny6410.Strings.Split
import Tiny6410.Stdio.Snprintf
import Tiny6410.Linux.Dm9000Xmit
import Tiny6410.Linux.Display
import Tiny6410.Linux.Dm9000Rx
import Tiny6410.Linux.EchoServer
import Tiny6410.Linux.NandOneBit
import Tiny6410.Linux.NandFourBit
import Tiny6410.Stdio.Output
import Tiny6410.Stdio.Arguments
