import H713.Rpc.Call
import H713.Lock.Hold
import H713.Lock.Alloc
import H713.Cpu.Flags
import H713.Share.Pool
import H713.Socket.Sems
import H713.Share.Reset
import H713.Proto.Answer
import H713.Scanout.Export
import H713.Decd.Show
import H713.Decd.Stop
import H713.Channel.Install
import H713.Channel.Deliver
import H713.Iommu.Bypass
import H713.Cedrus.Stop
import H713.Cedrus.Guard
import H713.Afbd.Flip
import H713.Mmc.Progress
import H713.Mmc.Mapping
import H713.Mmc.Counters
import H713.Decd.Fences
import H713.Routine.Errors
import H713.Board.Ntc
import H713.Board.Fans
import H713.Keystone.Position
import H713.Keystone.Tables
import H713.Keystone.Drain
import H713.Present.Progress
import H713.Ymodem.Session
import H713.Tvtop.Balance
import H713.Lock.Cleanup
import H713.Decd.Vsync
import H713.Mmc.Idma
import H713.Routine.Remove
import H713.Routine.Names
import H713.Component.Listeners
import H713.Proto.Incoming
import H713.Socket.Lists
import H713.Smm.Restore
import H713.Pwm.State
import H713.Keystone.BackOff
import H713.Tvtop.Rates
import H713.Nsi.Command
import H713.Bundle.Image
import H713.Mmc.Registers
import H713.Soak.Capture
import H713.Wifi.Reorder
