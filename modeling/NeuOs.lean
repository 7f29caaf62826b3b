import NeuOs.Blk.MakeRequest
import NeuOs.Boot.Setup
import NeuOs.Kernel.Alarm
import NeuOs.Kernel.FailedFork
import NeuOs.Kernel.Idt
import NeuOs.Kernel.Printk
import NeuOs.Kernel.Reap
import NeuOs.Kernel.Reentry
import NeuOs.Kernel.Restore
import NeuOs.Kernel.Sleep
import NeuOs.Kernel.Sprintf
import NeuOs.Kernel.Switch
import NeuOs.Kernel.SystemCall
import NeuOs.Kernel.Tlb
import NeuOs.Kernel.Turn
import NeuOs.Kernel.Waitpid
import NeuOs.Mm.CopyOnWrite
import NeuOs.Mm.Tlb
import NeuOs.Mm.VerifyArea
import NeuOs.Tty.Console
import NeuOs.Tty.Echo
import NeuOs.Tty.Erase
import NeuOs.Tty.Stores
import NeuOs.Tty.Typing
